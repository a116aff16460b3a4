import LicenseAudit.Text.Blank
import LicenseAudit.Text.Order
import LicenseAudit.Text.Search

/-!
# Copyright notices

A **notice** is a list of years, each with an optional end, and a holder.
`Notice.parse` reads it from a line with or without the word or sign that
announces it; `Notice.render` writes the stored form, the years before the
holder.  Notices of one holder merge into a single line that spans all
their years.
-/

namespace LicenseAudit

open Text

/-- Where a range of years ends: in a year, or at a word such as
`Present`. -/
inductive YearEnd where
  | year (year : Nat)
  | word (word : String)
  deriving DecidableEq, Repr

/-- A year, or the range from it to its end. -/
structure YearRange where
  start : Nat
  ending : Option YearEnd
  deriving DecidableEq, Repr

/-- A copyright notice. -/
structure Notice where
  years : List YearRange
  holder : String
  deriving DecidableEq, Repr

/-- What follows a copyright sign. -/
def dropSign? : List Char → Option (List Char)
  | '©' :: rest => some rest
  | '(' :: 'C' :: ')' :: rest => some rest
  | '(' :: 'c' :: ')' :: rest => some rest
  | _ => none

/-- The text without one colon at its start. -/
def dropColon : List Char → List Char
  | ':' :: rest => rest
  | cs => cs

/-- The word that announces a notice. -/
def copyrightWord : List Char :=
  "Copyright".toList

/-- The text after the announcement of a notice, if there is one: the word
with a sign and perhaps a colon, the word with a colon or a blank after
it, or a sign alone. -/
def dropAnnouncement? (cs : List Char) : Option (List Char) :=
  match dropStart? copyrightWord cs with
  | none => dropSign? cs
  | some rest =>
    match dropSign? (trimLeft rest) with
    | some rest' => some (dropColon rest')
    | none =>
      match rest with
      | [] => some []
      | c :: rest' =>
        if c = ':' then some rest'
        else if isBlank c then some rest
        else none

/-- The text after the announcement and the blanks that follow it. -/
def dropAnnouncement (cs : List Char) : List Char :=
  match dropAnnouncement? cs with
  | some rest => trimLeft rest
  | none => cs

/-- Blanks and commas separate years. -/
def isYearGap (c : Char) : Bool :=
  isBlank c || c == ','

/-- Whether a year may end here: at the end of the text or before a
gap. -/
def endsYear : List Char → Bool
  | [] => true
  | c :: _ => isYearGap c

/-- The number written with four digits. -/
def numberOf (a b c d : Char) : Nat :=
  [a, b, c, d].foldl (fun n c => 10 * n + (c.toNat - '0'.toNat)) 0

/-- The year at the start of a text, and what follows its four digits. -/
def takeYear? : List Char → Option (Nat × List Char)
  | a :: b :: c :: d :: rest =>
    if a.isDigit && b.isDigit && c.isDigit && d.isDigit then some (numberOf a b c d, rest)
    else none
  | _ => none

/-- The words that leave a range of years open. -/
def openWords : List String :=
  ["Present", "present", "Now", "now"]

/-- The end of a range at the start of a text, and what follows it. -/
def takeYearEnd? (cs : List Char) : Option (YearEnd × List Char) :=
  match takeYear? cs with
  | some (n, rest) => some (.year n, rest)
  | none =>
    openWords.findSome? fun w => (dropStart? w.toList cs).map fun rest => (.word w, rest)

/-- What follows a dash between two years. -/
def dropDash? : List Char → Option (List Char)
  | '-' :: '-' :: rest => some rest
  | '-' :: rest => some rest
  | '–' :: rest => some rest
  | _ => none

/-- The part of a range after its first year: the end, if any, and what
follows.  A dash without an end is dropped with the blanks before it. -/
def takeRangeEnd? (cs : List Char) : Option (Option YearEnd × List Char) :=
  match dropDash? (trimLeft cs) with
  | none => none
  | some rest =>
    match takeYearEnd? (trimLeft rest) with
    | some (e, rest') =>
      if endsYear rest' then some (some e, rest')
      else if endsYear rest then some (none, rest) else none
    | none => if endsYear rest then some (none, rest) else none

/-- The year or range at the start of a text, and what follows it. -/
def takeYearRange? (cs : List Char) : Option (YearRange × List Char) :=
  match takeYear? cs with
  | none => none
  | some (n, rest) =>
    match takeRangeEnd? rest with
    | some (e, rest') => some (⟨n, e⟩, rest')
    | none => if endsYear rest then some (⟨n, none⟩, rest) else none

/-- The text without the gap at its start. -/
def dropGap (cs : List Char) : List Char :=
  cs.dropWhile isYearGap

theorem length_dropGap_le (cs : List Char) : (dropGap cs).length ≤ cs.length :=
  (List.dropWhile_suffix isYearGap).length_le

theorem length_trimLeft_le (cs : List Char) : (trimLeft cs).length ≤ cs.length :=
  (List.dropWhile_suffix isBlank).length_le

theorem length_lt_of_takeYear? {cs rest : List Char} {n : Nat}
    (h : takeYear? cs = some (n, rest)) : rest.length < cs.length := by
  unfold takeYear? at h
  split at h
  · split at h
    · cases h; simp only [List.length_cons]; omega
    · cases h
  · cases h

theorem length_le_of_takeYearEnd? {cs rest : List Char} {e : YearEnd}
    (h : takeYearEnd? cs = some (e, rest)) : rest.length ≤ cs.length := by
  unfold takeYearEnd? at h
  split at h
  · next hy => cases h; exact Nat.le_of_lt (length_lt_of_takeYear? hy)
  · obtain ⟨w, _, hw⟩ := List.exists_of_findSome?_eq_some h
    cases hd : dropStart? w.toList cs with
    | none => simp [hd] at hw
    | some r =>
        simp only [hd, Option.map_some, Option.some.injEq, Prod.mk.injEq] at hw
        obtain ⟨_, rfl⟩ := hw
        rw [dropStart?_eq_some_iff.1 hd]
        simp

theorem length_le_of_dropDash? {cs rest : List Char}
    (h : dropDash? cs = some rest) : rest.length ≤ cs.length := by
  unfold dropDash? at h
  split at h <;> cases h <;> simp only [List.length_cons] <;> omega

theorem length_le_of_takeRangeEnd? {cs rest : List Char} {e : Option YearEnd}
    (h : takeRangeEnd? cs = some (e, rest)) : rest.length ≤ cs.length := by
  have hcs := length_trimLeft_le cs
  unfold takeRangeEnd? at h
  split at h
  · cases h
  · next r hr =>
      have hr' := length_le_of_dropDash? hr
      split at h
      · next hy =>
          have := length_le_of_takeYearEnd? hy
          have := length_trimLeft_le r
          split at h
          · cases h; omega
          · split at h <;> cases h; omega
      · split at h <;> cases h; omega

/-- Reading a year range shortens the text. -/
theorem length_lt_of_takeYearRange? {cs rest : List Char} {y : YearRange}
    (h : takeYearRange? cs = some (y, rest)) : rest.length < cs.length := by
  unfold takeYearRange? at h
  split at h
  · cases h
  · next hy =>
      have := length_lt_of_takeYear? hy
      split at h
      · next hr => cases h; have := length_le_of_takeRangeEnd? hr; omega
      · split at h <;> cases h; omega

/-- The years at the start of a text, with the gaps before each, and what
follows the last of them. -/
def takeYears (cs : List Char) : List YearRange × List Char :=
  match _h : takeYearRange? (dropGap cs) with
  | none => ([], cs)
  | some (y, rest) =>
    let (years, rest') := takeYears rest
    (y :: years, rest')
termination_by cs.length
decreasing_by
  have := length_lt_of_takeYearRange? _h
  have := length_dropGap_le cs
  omega

/-- The notice in a line. -/
def Notice.parse (text : String) : Notice :=
  let (years, rest) := takeYears (dropAnnouncement (trim text.toList))
  let holder := if years.isEmpty then rest else dropGap rest
  ⟨years, String.ofList (trim holder)⟩

/-- The written form of a year or range. -/
def YearRange.render (r : YearRange) : String :=
  match r.ending with
  | none => toString r.start
  | some (.year n) => toString r.start ++ "-" ++ toString n
  | some (.word w) => toString r.start ++ "-" ++ w

/-- The stored form of a notice: its years, a space, its holder. -/
def Notice.render (n : Notice) : String :=
  let years := ", ".intercalate (n.years.map YearRange.render)
  if years.isEmpty then n.holder
  else if n.holder.isEmpty then years
  else years ++ " " ++ n.holder

/-- The stored form of the notice in a line. -/
def Notice.normalize (text : String) : String :=
  (Notice.parse text).render

/-- The last year that a range mentions. -/
def YearRange.lastYear (r : YearRange) : Nat :=
  match r.ending with
  | some (.year n) => n
  | _ => r.start

/-- The word that leaves a range open. -/
def YearRange.openWord? (r : YearRange) : Option String :=
  match r.ending with
  | some (.word w) => some w
  | _ => none

/-- The range from the earliest start to the latest end of a range and
some more; open as soon as one of them is, at the first such word. -/
def YearRange.span (r : YearRange) (rs : List YearRange) : YearRange :=
  let start := rs.foldl (fun n s => min n s.start) r.start
  let latest := rs.foldl (fun n s => max n s.lastYear) r.lastYear
  match (r :: rs).findSome? YearRange.openWord? with
  | some w => ⟨start, some (.word w)⟩
  | none => ⟨start, if latest = start then none else some (.year latest)⟩

/-- The line for one holder whose notices mention the given ranges. -/
def Notice.merged (holder : String) : List YearRange → String
  | [] => holder
  | r :: rs => Notice.render ⟨[r.span rs], holder⟩

/-- One line per holder, in ascending order. -/
def Notice.mergeLines (lines : List String) : List String :=
  let notices := lines.map Notice.parse
  let holders := (notices.map Notice.holder).eraseDups
  sortedUnique <| holders.map fun holder =>
    Notice.merged holder ((notices.filter (·.holder = holder)).flatMap Notice.years)

end LicenseAudit
