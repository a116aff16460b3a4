import LicenseAudit.Text.Search
import LicenseAudit.Text.Units

/-!
# The deprecated manifest

The deprecated manifest gives one license and any number of copyright lines
to the files that a paragraph's patterns match; of several matching
paragraphs the last counts.  A pattern is a list of letters over the 16-bit
units of a path: a star stands for any run of them, slashes included, a
question mark for one, and a backslash takes the meaning from the next
character.  A pattern with a slash at its end also matches what lies below.
-/

namespace LicenseAudit.Dep5

open Text

/-- A letter of a pattern. -/
inductive Letter where
  | run
  | one
  | exact (unit : Nat)
  deriving DecidableEq, Repr

/-- The letters that spell a character. -/
def exactly (c : Char) : List Letter :=
  (units c).map .exact

/-- The letters of a text.  A backslash at the end stands for itself. -/
def lettersOf : List Char → List Letter
  | [] => []
  | ['\\'] => exactly '\\'
  | '\\' :: c :: cs => exactly c ++ lettersOf cs
  | c :: cs =>
    (if c = '*' then [.run] else if c = '?' then [.one] else exactly c) ++ lettersOf cs

/-- A pattern: its source and its letters. -/
structure Pattern where
  source : String
  letters : List Letter
  deriving DecidableEq, Repr

/-- The pattern that a source spells.  A dot and a slash at the start say
nothing. -/
def Pattern.ofSource (source : String) : Pattern :=
  let cs := source.toList
  let cs := (dropStart? ['.', '/'] cs).getD cs
  ⟨source, lettersOf cs ++ (if cs.getLast? = some '/' then [.run] else [])⟩

/-- Whether letters spell a list of units. -/
def spells : List Letter → List Nat → Bool
  | [], us => us.isEmpty
  | .run :: ls, [] => spells ls []
  | .run :: ls, u :: us => spells ls (u :: us) || spells (.run :: ls) us
  | .one :: _, [] => false
  | .one :: ls, _ :: us => spells ls us
  | .exact _ :: _, [] => false
  | .exact l :: ls, u :: us => l == u && spells ls us
termination_by ls us => (ls.length, us.length)

/-- Whether a pattern matches a path. -/
def Pattern.isMatch (p : Pattern) (path : String) : Bool :=
  spells p.letters (unitsOf path.toList)

/-- A paragraph about some files. -/
structure Paragraph where
  patterns : List Pattern
  copyrights : List String
  license : String
  deriving DecidableEq, Repr

/-- Whether one of a paragraph's patterns matches a path. -/
def Paragraph.isMatch (p : Paragraph) (path : String) : Bool :=
  p.patterns.any (·.isMatch path)

end Dep5

/-- A deprecated manifest: its path and its paragraphs. -/
structure Dep5 where
  path : String
  paragraphs : List Dep5.Paragraph
  deriving DecidableEq, Repr

namespace Dep5

/-- The last paragraph that matches a path, with its position. -/
def find? (m : Dep5) (path : String) : Option (Paragraph × Nat) :=
  m.paragraphs.zipIdx.reverse.find? fun (p, _) => p.isMatch path

end LicenseAudit.Dep5
