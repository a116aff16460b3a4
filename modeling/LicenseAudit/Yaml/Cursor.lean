import LicenseAudit.Yaml

/-!
# Cursors in a YAML document

A cursor stands between two characters of a document.  It knows what
follows, which line it is in and how far that line is indented, and what
the part before it has declared: anchors and tag handles.  Blanks, comments
and line ends are skipped here, because indentation is counted on the way.
-/

namespace LicenseAudit.Yaml

/-- A place in a document, with what the part before it has declared.  An
anchor stands for no value while its node is being read; `tab` is the
column of the first tab among the blanks before the cursor in its line. -/
structure Cursor where
  rest : List Char
  last : Option Char := none
  line : Nat := 0
  column : Nat := 0
  indent : Nat := 0
  tab : Option Nat := none
  anchors : List (String × Option Yaml) := []
  handles : List (String × String) := []

/-- A result, or a reason to stop. -/
abbrev Reading := Except Fault

/-- The blanks within a line. -/
def isInline (c : Char) : Bool :=
  c == ' ' || c == '\t'

/-- The characters that end a line. -/
def isBreak (c : Char) : Bool :=
  c == '\n' || c == '\r'

/-- The characters that separate words. -/
def isSpace (c : Char) : Bool :=
  isInline c || isBreak c

/-- The characters that structure flow collections. -/
def isFlowMark (c : Char) : Bool :=
  c == ',' || c == '[' || c == ']' || c == '{' || c == '}'

/-- The characters that may not stand in a document. -/
def isForbidden (c : Char) : Bool :=
  let n := c.toNat
  (n < 0x20 && !(c == '\t' || isBreak c)) || (0x7F ≤ n && n ≤ 0x9F && n != 0x85) ||
    n == 0xFFFE || n == 0xFFFF

namespace Cursor

/-- A failure at the cursor. -/
def fail (c : Cursor) (reason : Reason) : Reading α :=
  .error ⟨reason, some ⟨c.line + 1, c.column + 1⟩⟩

/-- The next character. -/
def peek (c : Cursor) : Option Char :=
  c.rest.head?

/-- Whether the next character is `mark`. -/
def isAt (c : Cursor) (mark : Char) : Bool :=
  c.peek == some mark

/-- Whether the document ends here. -/
def atEnd (c : Cursor) : Bool :=
  c.rest.isEmpty

/-- The cursor after some of the next characters, none of which ends a
line. -/
def advance (c : Cursor) (count : Nat) : Cursor :=
  let passed := c.rest.take count
  { c with
    rest := c.rest.drop count
    last := passed.getLast? <|> c.last
    column := c.column + Text.size passed }

/-- The cursor after the next character. -/
def next (c : Cursor) : Cursor :=
  c.advance 1

/-- The next characters as long as they are of a kind, and the cursor
after them. -/
def span (c : Cursor) (kind : Char → Bool) : List Char × Cursor :=
  let passed := c.rest.takeWhile kind
  (passed, c.advance passed.length)

/-- The cursor after the characters of a kind. -/
def skip (c : Cursor) (kind : Char → Bool) : Cursor :=
  (c.span kind).2

/-- The cursor after the blanks in its line; the first tab is noted. -/
def skipInline (c : Cursor) : Cursor :=
  let (blanks, d) := c.span isInline
  { d with tab := c.tab <|> (blanks.idxOf? '\t').map (c.column + ·) }

/-- The cursor at the end of its line. -/
def toLineEnd (c : Cursor) : Cursor :=
  c.skip (!isBreak ·)

/-- The cursor at the start of the next line, if its line ends here. -/
def nextLine? (c : Cursor) : Option Cursor :=
  let start (rest : List Char) : Cursor :=
    { c with rest, last := some '\n', line := c.line + 1, column := 0, tab := none }
  match c.rest with
  | '\n' :: rest => some (start rest)
  | '\r' :: '\n' :: rest => some (start rest)
  | '\r' :: rest => some (start rest)
  | _ => none

/-- The cursor at the start of the next line; the line has to end here. -/
def nextLine (c : Cursor) : Reading Cursor :=
  match c.nextLine? with
  | some d => .ok d
  | none => c.fail .lineEndExpected

/-- The cursor after the spaces at the start of its line, which are
counted. -/
def indented (c : Cursor) : Cursor :=
  let (spaces, d) := c.span (· == ' ')
  { d with indent := spaces.length }

/-- How many lines end before the next word, and the cursor at that word;
comments are skipped if they are allowed here. -/
def skipLines (comments : Bool) (fuel : Nat) (c : Cursor) : Nat × Cursor :=
  let c := c.skipInline
  let c := if comments && c.isAt '#' then c.toLineEnd else c
  match fuel, c.nextLine? with
  | fuel + 1, some d =>
    let (breaks, d) := skipLines comments fuel d.indented
    (breaks + 1, d)
  | _, _ => (0, c)

/-- How many lines end before the next word, and the cursor at that word,
comments skipped. -/
def toWord (c : Cursor) : Nat × Cursor :=
  c.skipLines true c.rest.length

/-- The cursor at the next word, comments skipped. -/
def word (c : Cursor) : Cursor :=
  c.toWord.2

/-- How many lines end before the next word, and the cursor at that word,
inside a scalar, where nothing is a comment. -/
def toContent (c : Cursor) : Nat × Cursor :=
  c.skipLines false c.rest.length

/-- Whether the cursor is at three equal marks, dashes or points, that end
a document. -/
def atSeparator (c : Cursor) : Bool :=
  c.column == 0 &&
    match c.rest with
    | a :: b :: d :: rest => (a == '-' || a == '.') && a == b && b == d && rest.head?.all isSpace
    | _ => false

/-- Whether the cursor is at `mark` with a blank or line end after it. -/
def isAtWord (c : Cursor) (mark : Char) : Bool :=
  match c.rest with
  | a :: b :: _ => a == mark && isSpace b
  | _ => false

/-- The cursor with an anchor given a value, or opened. -/
def anchor (c : Cursor) (name : Option String) (value : Option Yaml) : Cursor :=
  match name with
  | none => c
  | some name => { c with anchors := (name, value) :: c.anchors }

end Cursor

end LicenseAudit.Yaml
