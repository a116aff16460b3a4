import LicenseAudit.Dep5.Reading
import LicenseAudit.Proofs.Notice.RoundTrip

/-!
# The lines of a deprecated manifest

The lines of a text are those that it was put together from, whichever of the
two line ends stands after each (`pieces_unixText`).  What a line is shows at
its start: a field is the value after its name (`ofChars_fieldLine`), a
continuation the value after a blank (`ofChars_continuationLine`), and a comment or
a blank line has no value.
-/

namespace LicenseAudit.Dep5

open Text

variable {line : List Char} {lines : List (List Char)} {text : List Char}

/-- The lines of a text, each but the last with a line feed after it or with a
carriage return and a line feed. -/
inductive IsTextOf : List (List Char) → List Char → Prop
  | last (line : List Char) (hline : '\n' ∉ line) : IsTextOf [line] line
  | lineFeed (line : List Char) (hline : '\n' ∉ line) (hend : line.getLast? ≠ some '\r')
      {lines : List (List Char)} {text : List Char} (h : IsTextOf lines text) :
      IsTextOf (line :: lines) (line ++ '\n' :: text)
  | carriageReturn (line : List Char) (hline : '\n' ∉ line)
      {lines : List (List Char)} {text : List Char} (h : IsTextOf lines text) :
      IsTextOf (line :: lines) (line ++ '\r' :: '\n' :: text)

/-- A line stays as it is in front of an end that it has no part in. -/
theorem unixText_append (hline : '\n' ∉ line)
    (hend : line.getLast? = some '\r' → text.head? ≠ some '\n') :
    unixText (line ++ text) = line ++ unixText text := by
  induction line with
  | nil => rfl
  | cons c line ih =>
      have hrest : '\n' ∉ line := fun hmem => hline (List.mem_cons_of_mem c hmem)
      have hpair : c = '\r' → (line ++ text).head? ≠ some '\n' := by
        intro hc
        cases line with
        | nil => exact hend (by rw [hc]; rfl)
        | cons d line =>
            intro hd
            exact hrest (by simp [Option.some.inj hd])
      have hends : line.getLast? = some '\r' → text.head? ≠ some '\n' := by
        intro hlast
        rw [List.getLast?_cons, hlast, Option.getD_some] at hend
        exact hend rfl
      rw [List.cons_append, unixText_cons hpair, List.cons_append, ih hrest hends]

/-- The lines that a text was put together from are read off it again. -/
theorem pieces_unixText (h : IsTextOf lines text) : pieces '\n' (unixText text) = lines := by
  induction h with
  | last line hline =>
      rw [unixText_of_not_mem hline, pieces_of_not_mem hline]
  | @lineFeed line hline hend lines text h ih =>
      have hfeed : unixText ('\n' :: text) = '\n' :: unixText text :=
        unixText.eq_3 _ _ fun _ hc => absurd hc (by decide)
      rw [unixText_append hline fun hreturn => absurd hreturn hend, hfeed,
        pieces_append_cons hline, ih]
  | carriageReturn line hline h ih =>
      rw [unixText_append hline fun _ => by simp]
      exact (pieces_append_cons hline _).trans (congrArg (line :: ·) ih)

/-- Every text has lines. -/
theorem exists_isTextOf (text : List Char) : ∃ lines, IsTextOf lines text := by
  induction hn : text.length using Nat.strongRecOn generalizing text with
  | ind n ih =>
      subst hn
      by_cases hfeed : '\n' ∈ text
      · obtain ⟨line, rest, rfl, hline⟩ := List.eq_append_cons_of_mem hfeed
        have hlt : rest.length < (line ++ '\n' :: rest).length := by
          simp only [List.length_append, List.length_cons]
          omega
        obtain ⟨lines, hrest⟩ := ih rest.length hlt rest rfl
        by_cases hend : line.getLast? = some '\r'
        · obtain ⟨line, rfl⟩ := List.getLast?_eq_some_iff.1 hend
          rw [List.append_assoc]
          exact ⟨_, .carriageReturn line (fun hmem => hline (List.mem_append_left _ hmem)) hrest⟩
        · exact ⟨_, .lineFeed line hline hend hrest⟩
      · exact ⟨_, .last text hfeed⟩

theorem isTextOf_iff : IsTextOf lines text ↔ pieces '\n' (unixText text) = lines := by
  constructor
  · exact pieces_unixText
  · intro h
    obtain ⟨lines', htext⟩ := exists_isTextOf text
    rwa [← pieces_unixText htext, h] at htext

instance (lines : List (List Char)) (text : List Char) : Decidable (IsTextOf lines text) :=
  decidable_of_iff _ isTextOf_iff.symm

theorem isBlank_eq_false_of_isNameChar {c : Char} (h : isNameChar c = true) :
    isBlank c = false := by
  change ((c.isAlpha || c.isDigit) || c == '-') = true at h
  simp only [Bool.or_eq_true, beq_iff_eq] at h
  rcases h with (h | h) | rfl
  · exact isBlank_eq_false_of_isAlpha h
  · exact isBlank_eq_false_of_isDigit h
  · decide

/-- A text may be the **name** of a field when it starts with a letter and has
nothing but letters, digits and dashes. -/
structure IsFieldName (name : String) : Prop where
  starts : name.toList.head?.any Char.isAlpha = true
  isNameChar : ∀ c ∈ name.toList, isNameChar c = true

-- The characters of the text are tested, so that no search over all characters decides this.
theorem isFieldName_iff {name : String} : IsFieldName name ↔
    name.toList.head?.any Char.isAlpha = true ∧ name.toList.all isNameChar = true := by
  rw [List.all_eq_true]
  exact ⟨fun ⟨hstarts, hall⟩ => ⟨hstarts, hall⟩, fun ⟨hstarts, hall⟩ => ⟨hstarts, hall⟩⟩

instance (name : String) : Decidable (IsFieldName name) :=
  decidable_of_iff _ isFieldName_iff.symm

/-- A text may be the **value** of a field when it stands on one line and has
no blanks at its ends. -/
structure IsValue (value : String) : Prop where
  trimmed : trimmed value = value
  unbroken : ∀ c ∈ value.toList, isLineEnd c = false

theorem isValue_iff {value : String} : IsValue value ↔
    trimmed value = value ∧ value.toList.any isLineEnd = false := by
  rw [any_eq_false_iff]
  exact ⟨fun ⟨htrimmed, hunbroken⟩ => ⟨htrimmed, hunbroken⟩,
    fun ⟨htrimmed, hunbroken⟩ => ⟨htrimmed, hunbroken⟩⟩

instance (value : String) : Decidable (IsValue value) :=
  decidable_of_iff _ isValue_iff.symm

/-- The line of a field. -/
def fieldLine (name value : String) : List Char :=
  name.toList ++ ':' :: spaced value.toList

variable {name value : String}

theorem IsFieldName.exists_eq_cons (h : IsFieldName name) :
    ∃ c cs, name.toList = c :: cs ∧ c.isAlpha = true := by
  obtain ⟨hstarts, -⟩ := h
  cases hname : name.toList with
  | nil =>
      rw [hname] at hstarts
      cases hstarts
  | cons c cs =>
      rw [hname] at hstarts
      exact ⟨c, cs, rfl, hstarts⟩

/-- A field is split into its name and the value after the colon and one
blank. -/
theorem splitField?_fieldLine (hname : IsFieldName name) (hvalue : IsValue value) :
    splitField? (fieldLine name value) =
      some (String.ofList (name.toList.map Char.toLower), value.toList) := by
  have htake : (fieldLine name value).takeWhile isNameChar = name.toList := by
    rw [fieldLine, List.takeWhile_append_of_pos hname.isNameChar]
    simp [isNameChar]
  have hdrop : (fieldLine name value).dropWhile isNameChar = ':' :: spaced value.toList := by
    rw [fieldLine, List.dropWhile_append_of_pos hname.isNameChar]
    simp [isNameChar]
  have hvalue' : (if (spaced value.toList).head?.any isBlank then (spaced value.toList).tail
      else spaced value.toList) = value.toList := by
    cases value.toList with
    | nil => rfl
    | cons c cs => rfl
  have hunbroken : value.toList.any isLineEnd = false := (isValue_iff.1 hvalue).2
  obtain ⟨c, cs, hcs, hc⟩ := hname.exists_eq_cons
  have hhead : (fieldLine name value).head? = some c := by
    rw [fieldLine, hcs]
    rfl
  simp only [splitField?, htake, hdrop, hhead, hvalue', hunbroken, hc, Bool.not_false,
    Bool.and_self, if_true]

/-- A field is the value after its name. -/
theorem ofChars_fieldLine (hname : IsFieldName name) (hvalue : IsValue value) :
    Line.ofChars (fieldLine name value) =
      .field (String.ofList (name.toList.map Char.toLower)) value := by
  have hsplit := splitField?_fieldLine hname hvalue
  have htrimmed : String.ofList (trim value.toList) = value := hvalue.trimmed
  obtain ⟨c, cs, hcs, -⟩ := hname.exists_eq_cons
  have hc : isNameChar c = true := hname.isNameChar c (by simp [hcs])
  have hblank : isBlank c = false := isBlank_eq_false_of_isNameChar hc
  have hnumber : c ≠ '#' := by
    rintro rfl
    cases hc
  have hne : String.ofList (trim (c :: (cs ++ ':' :: spaced value.toList))) ≠ "" := by
    simpa using trim_cons_ne_nil hblank _
  have hcons : fieldLine name value = c :: (cs ++ ':' :: spaced value.toList) := by
    rw [fieldLine, hcs, List.cons_append]
  rw [hcons] at hsplit ⊢
  simp only [Line.ofChars, hne, hnumber, hblank, hsplit, htrimmed, if_false, Bool.false_eq_true]

/-- The line of a continuation. -/
def continuationLine (value : String) : List Char :=
  ' ' :: value.toList

/-- A continuation is the value after a blank. -/
theorem ofChars_continuationLine (hvalue : IsValue value) (hne : value ≠ "")
    (hdot : value ≠ ".") : Line.ofChars (continuationLine value) = .continuation value := by
  have htrim : String.ofList (trim (' ' :: value.toList)) = value := by
    rw [trim_cons_of_isBlank (by decide)]
    exact hvalue.trimmed
  have hblank : isBlank ' ' = true := by decide
  simp only [continuationLine, Line.ofChars, htrim, hne, hdot, hblank, if_false, if_true,
    show ' ' ≠ '#' by decide]

theorem ofChars_comment (cs : List Char) : Line.ofChars ('#' :: cs) = .comment := by
  have hne : trim ('#' :: cs) ≠ [] := trim_cons_ne_nil (by decide) cs
  simp [Line.ofChars, hne]

theorem ofChars_of_isBlank (hline : ∀ c ∈ line, isBlank c = true) : Line.ofChars line = .blank := by
  simp [Line.ofChars, trim_eq_nil_iff.2 hline]

/-- A text is a **word** when it is not empty and has no blanks. -/
structure IsWord (w : String) : Prop where
  ne_empty : w ≠ ""
  no_blank : ∀ c ∈ w.toList, isBlank c = false

theorem isWord_iff {w : String} : IsWord w ↔ w ≠ "" ∧ w.toList.any isBlank = false := by
  rw [any_eq_false_iff]
  exact ⟨fun ⟨hne, hblank⟩ => ⟨hne, hblank⟩, fun ⟨hne, hblank⟩ => ⟨hne, hblank⟩⟩

instance (w : String) : Decidable (IsWord w) :=
  decidable_of_iff _ isWord_iff.symm

/-- The line that words with single spaces between them make. -/
def wordLine (words : List String) : List Char :=
  joined [' '] (words.map String.toList)

theorem wordLine_cons_cons (w v : String) (words : List String) :
    wordLine (w :: v :: words) = w.toList ++ ' ' :: wordLine (v :: words) := by
  rfl

theorem wordsOf_cons (c : Char) (cs : List Char) :
    wordsOf (c :: cs) =
      if isBlank c then wordsOf cs
      else
        match cs with
        | [] => [[c]]
        | d :: _ =>
          match isBlank d, wordsOf cs with
          | false, word :: rest => (c :: word) :: rest
          | _, rest => [c] :: rest := by
  rfl

/-- A word ends at a blank or at the end of the text. -/
theorem wordsOf_append {w rest : List Char} (hne : w ≠ []) (hw : ∀ c ∈ w, isBlank c = false)
    (hrest : ∀ c ∈ rest.head?, isBlank c = true) : wordsOf (w ++ rest) = w :: wordsOf rest := by
  induction w with
  | nil => exact absurd rfl hne
  | cons c w ih =>
      obtain ⟨hc, hw⟩ := List.forall_mem_cons.1 hw
      cases w with
      | nil =>
          cases rest with
          | nil =>
              rw [List.append_nil, wordsOf_cons, hc]
              rfl
          | cons d rest =>
              have hd : isBlank d = true := hrest d rfl
              simp [wordsOf_cons c, hc, hd]
      | cons d w =>
          have hd : isBlank d = false := hw d List.mem_cons_self
          have hmore := ih (by simp) hw
          rw [List.cons_append] at hmore
          rw [List.cons_append, List.cons_append, wordsOf_cons]
          simp only [hc, hd, hmore, Bool.false_eq_true, if_false]

/-- The words of a line that words make are these words. -/
theorem wordsOf_wordLine {words : List String} (hwords : ∀ w ∈ words, IsWord w) :
    wordsOf (wordLine words) = words.map String.toList := by
  induction words with
  | nil => rfl
  | cons w words ih =>
      obtain ⟨hw, hwords⟩ := List.forall_mem_cons.1 hwords
      have hne : w.toList ≠ [] := by simpa using hw.ne_empty
      cases words with
      | nil =>
          have hone := @wordsOf_append w.toList [] hne hw.no_blank (by simp)
          rwa [List.append_nil] at hone
      | cons v words =>
          have hspace : isBlank ' ' = true := by decide
          have hskip : wordsOf (' ' :: wordLine (v :: words)) =
              wordsOf (wordLine (v :: words)) := by
            rw [wordsOf_cons, if_pos hspace]
          rw [wordLine_cons_cons, wordsOf_append hne hw.no_blank (by simpa using hspace), hskip,
            ih hwords]
          rfl

theorem wordLine_ne_nil {w : String} (hw : IsWord w) (words : List String) :
    wordLine (w :: words) ≠ [] := by
  have hne : w.toList ≠ [] := by simpa using hw.ne_empty
  cases words with
  | nil => exact hne
  | cons v words => exact List.append_ne_nil_of_left_ne_nil hne _

theorem isTrimmed_wordLine {words : List String} (hwords : ∀ w ∈ words, IsWord w) :
    IsTrimmed (wordLine words) := by
  induction words with
  | nil => exact ⟨nofun, nofun⟩
  | cons w words ih =>
      obtain ⟨hw, hwords⟩ := List.forall_mem_cons.1 hwords
      have hword : IsTrimmed w.toList :=
        ⟨fun c hc => hw.no_blank c (List.mem_of_head? hc),
          fun c hc => hw.no_blank c (List.mem_of_getLast? hc)⟩
      cases words with
      | nil => exact hword
      | cons v words =>
          have hne := wordLine_ne_nil (hwords v List.mem_cons_self) words
          exact hword.append (ih hwords) (by simpa using hw.ne_empty) hne [' ']

theorem mem_wordLine {words : List String} {c : Char} (hc : c ∈ wordLine words) :
    c = ' ' ∨ ∃ w ∈ words, c ∈ w.toList := by
  induction words with
  | nil => cases hc
  | cons w words ih =>
      cases words with
      | nil => exact .inr ⟨w, by simp, hc⟩
      | cons v words =>
          rw [wordLine_cons_cons, List.mem_append, List.mem_cons] at hc
          rcases hc with hc | rfl | hc
          · exact .inr ⟨w, by simp, hc⟩
          · exact .inl rfl
          · exact (ih hc).imp_right fun ⟨u, hu, hcu⟩ => ⟨u, List.mem_cons_of_mem w hu, hcu⟩

/-- Words may be the value of a field. -/
theorem isValue_wordLine {words : List String} (hwords : ∀ w ∈ words, IsWord w) :
    IsValue (String.ofList (wordLine words)) := by
  constructor
  · rw [trimmed, String.toList_ofList, trim_eq_self_iff.2 (isTrimmed_wordLine hwords)]
  · intro c hc
    rw [String.toList_ofList] at hc
    rcases mem_wordLine hc with rfl | ⟨w, hw, hcw⟩
    · decide
    · have hblank := (hwords w hw).no_blank c hcw
      by_contra hend
      rw [isBlank_of_isLineEnd (by simpa using hend)] at hblank
      cases hblank

end LicenseAudit.Dep5
