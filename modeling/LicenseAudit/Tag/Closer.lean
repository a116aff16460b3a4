import LicenseAudit.Text.Blank
import LicenseAudit.Text.Search

/-!
# Comment closers

A tag's value ends where its comment does.  `stripClosers` removes from
the end of a value every sign that closes a comment, with the blanks
around it, until the value ends in neither.
-/

namespace LicenseAudit.Tag

open Text

/-- The signs that close a comment, a sign before those it ends with. -/
def commentClosers : List (List Char) :=
  ["--]]".toList, "\"\"\"".toList, "'''".toList, "-->".toList, "\"/>".toList, "]::".toList,
    "*/".toList, "*|".toList, ['#', '}'], ['%', '}'], "*)".toList, ['-', '}'], "|#".toList, ['*']]

/-- The text without the first closer that it ends with. -/
def dropCloser? (cs : List Char) : Option (List Char) :=
  commentClosers.findSome? (dropEnd? · cs)

theorem length_trimRight_le (cs : List Char) :
    (trimRight cs).length ≤ cs.length := by
  simpa [trimRight] using (List.dropWhile_suffix isBlank (l := cs.reverse)).length_le

theorem length_lt_of_dropCloser? {cs rest : List Char}
    (h : dropCloser? cs = some rest) : rest.length < cs.length := by
  obtain ⟨closer, hc, hd⟩ := List.exists_of_findSome?_eq_some h
  have hne : closer ≠ [] := by
    intro he
    subst he
    simp [commentClosers] at hc
  obtain ⟨r, hr, rfl⟩ := Option.map_eq_some_iff.1 hd
  have := congrArg List.length (dropStart?_eq_some_iff.1 hr)
  have := List.length_pos_iff.2 hne
  simp only [List.length_reverse, List.length_append] at *
  omega

/-- The text without the closers at its end and the blanks before each. -/
def dropClosers (cs : List Char) : List Char :=
  match _h : dropCloser? cs with
  | none => cs
  | some rest => dropClosers (trimRight rest)
termination_by cs.length
decreasing_by
  have := length_lt_of_dropCloser? _h
  have := length_trimRight_le rest
  omega

/-- The value without the blanks around it and the closers at its end. -/
def stripClosers (cs : List Char) : List Char :=
  dropClosers (trim cs)

end LicenseAudit.Tag
