import LicenseAudit.Coverage

/-!
# Patterns of directories

The walk is given each excluded directory as a **pattern**: the path of the
directory with its signs escaped by backslashes, a slash, and two stars for all
that lies there.  What the walk compares a path with are the **letters** that
are read from the pattern, and what may follow them.

Escaping leaves a backslash alone that stands before a sign, and quotes.  The
reader takes the one for an escape and leaves the others out, so the pattern of
such a directory names another place than the directory.
-/

namespace LicenseAudit

open Text Coverage

/-- A letter of a pattern: a character, any character of one unit within a
line, or an end of the text. -/
inductive DirectoryPattern.Letter where
  | char (c : Char)
  | any
  | start
  | stop
  deriving DecidableEq, Repr

/-- What may follow the letters of a pattern: nothing or a slash and anything,
a slash and anything, anything before a slash, nothing, or anything. -/
inductive DirectoryPattern.Ending where
  | within
  | below
  | level
  | exact
  | anything
  deriving DecidableEq, Repr

/-- A piece of the text of a pattern: a character by itself, behind a
backslash, or behind a run of backslashes that stands for one. -/
inductive DirectoryPattern.Piece where
  | plain (c : Char)
  | escape (c : Char)
  | raw (c : Char)
  deriving DecidableEq, Repr

/-- A pattern as it is read.  A rooted one is compared with absolute paths. -/
structure DirectoryPattern where
  isRooted : Bool
  letters : List DirectoryPattern.Letter
  ending : DirectoryPattern.Ending
  deriving DecidableEq, Repr

namespace DirectoryPattern

/-- Whether a character is a sign in every pattern. -/
def isSign (c : Char) : Bool :=
  ['(', ')', '*', '?', '[', ']', '{', '|', '}'].contains c

/-- Whether a character is a sign before a parenthesis. -/
def isGroupSign (c : Char) : Bool :=
  c == '!' || c == '+' || c == '@'

/-- Whether a backslash before this character is left alone. -/
def isEscapable (c : Char) : Bool :=
  isSign c || isGroupSign c

/-- A text with its signs escaped.  Of two backslashes the second is left
alone, unless it stands before a sign itself. -/
def escapedInside : List Char → List Char
  | '\\' :: c :: rest =>
    if isEscapable c || (c == '\\' && !rest.head?.any isEscapable) then
      '\\' :: c :: escapedInside rest
    else '\\' :: '\\' :: escapedInside (c :: rest)
  | c :: rest =>
    if isSign c || c == '\\' || (isGroupSign c && rest.head? == some '(') then
      '\\' :: c :: escapedInside rest
    else c :: escapedInside rest
  | [] => []

/-- A path with its signs escaped.  At the start of a pattern an exclamation
mark is one. -/
def escaped : List Char → List Char
  | '!' :: rest => '\\' :: '!' :: escapedInside rest
  | cs => escapedInside cs

/-- Whether a text has a closing brace behind an opening one. -/
def hasBraces (cs : List Char) : Bool :=
  (cs.dropWhile (· != '{')).contains '}'

def isQuote (c : Char) : Bool :=
  c == '"' || c == '\'' || c == '\x60'

/-- A blank that texts with braces do not keep. -/
def isLostBlank (c : Char) : Bool :=
  c == '\u00a0' || c == '\ufeff'

/-- A text without its quotes, as texts with braces are read; behind the start
of a quotation only its own quote ends it. -/
def withoutQuotes (quote : Option Char) : List Char → List Char
  | '\\' :: c :: cs => '\\' :: c :: withoutQuotes quote cs
  | c :: cs =>
    match quote with
    | some q => if c = q then withoutQuotes none cs else c :: withoutQuotes quote cs
    | none =>
      if isQuote c then withoutQuotes (some c) cs
      else if isLostBlank c then withoutQuotes none cs
      else c :: withoutQuotes none cs
  | [] => []

/-- A text in which no slash follows another. -/
def withSingleSlashes : List Char → List Char
  | '/' :: '/' :: cs => withSingleSlashes ('/' :: cs)
  | c :: cs => c :: withSingleSlashes cs
  | [] => []

/-- A text that has lost its quotes, put in order: slashes behind the first
character count as one, and an exclamation mark at the start is dropped. -/
def tidied : List Char → List Char
  | '!' :: cs => withSingleSlashes cs
  | c :: cs => c :: withSingleSlashes cs
  | [] => []

/-- The text of the pattern of a directory, without the stars at its end. -/
def text (directory : List Char) : List Char :=
  let cs := escaped directory ++ ['/']
  let bare := withoutQuotes none cs
  if hasBraces directory && bare != cs then tidied bare else cs

/-- The text behind the dots and slashes that stand for the project. -/
def behindHere : List Char → List Char
  | '.' :: '/' :: cs => behindHere cs
  | cs => cs

/-- The piece that a character makes behind some backslashes, and the one before
it. -/
def pieceBehind (backslashes : Nat) (c : Char) : List Piece :=
  match backslashes with
  | 0 => [.plain c]
  | 1 => [.escape c]
  | 2 => [.escape '\\', .plain c]
  | 3 => [.escape '\\', .escape c]
  | n => if n % 2 = 0 then [.raw c] else [.escape c]

/-- The pieces of a text behind some backslashes. -/
def piecesBehind (backslashes : Nat) : List Char → List Piece
  | '\\' :: cs => piecesBehind (backslashes + 1) cs
  | c :: cs => pieceBehind backslashes c ++ piecesBehind 0 cs
  | [] => []

/-- Whether a character goes on with a run of plain text. -/
def isPlain (c : Char) : Bool :=
  !(isEscapable c || ['.', ',', '$', '^', '\\', '/'].contains c)

/-- The letter that a character stands for when nothing escapes it. -/
def rawLetter (c : Char) : Letter :=
  if c = '.' then .any else if c = '^' then .start else if c = '$' then .stop else .char c

/-- What is read from the pieces of a pattern.  In a run of plain text, quotes
are characters like others; elsewhere they begin and end quotations.  The slash
before the stars is a sign only where it is a piece of its own outside
quotations, and `begun` says whether a piece was read before it. -/
def read (inRun quoted begun : Bool) : List Piece → List Letter × Ending
  | [] => if quoted then ([.char '*', .char '*'], .exact) else ([], .level)
  | .escape c :: ps => (read false quoted true ps).map (.char c :: ·) id
  | .raw c :: ps =>
    (read (!quoted && 0x10000 ≤ c.toNat) quoted true ps).map (.char '\\' :: rawLetter c :: ·) id
  | .plain c :: ps =>
    if inRun && isPlain c then (read true false true ps).map (.char c :: ·) id
    else if c = '\x00' then read false quoted begun ps
    else if c = '"' then read false (!quoted) begun ps
    else if quoted then (read false true begun ps).map (.char c :: ·) id
    else if c = '/' && ps.isEmpty then ([], if begun then .within else .below)
    else
      (read (isPlain c || c == '!' || c == '$' || c == '^') false true ps).map (.char c :: ·) id

/-- The pattern of a directory. -/
def of (directory : String) : DirectoryPattern :=
  let cs := text directory.toList
  match behindHere cs with
  | [] => ⟨false, [], .anything⟩
  | behind =>
    let (letters, ending) := read false false false (piecesBehind 0 behind)
    ⟨cs.head? == some '/', letters, ending⟩

/-- What follows the letters at the start of a text. -/
def after? : List Letter → List Char → Option (List Char)
  | [], cs => some cs
  | .char c :: ls, d :: cs => if c = d then after? ls cs else none
  | .any :: ls, d :: cs =>
    if !isLineEnd d && d.toNat < 0x10000 then after? ls cs else none
  | .stop :: ls, [] => after? ls []
  | _, _ => none

def Ending.admits : Ending → List Char → Bool
  | .within, cs => cs.isEmpty || cs.head? == some '/'
  | .below, cs => cs.head? == some '/'
  | .level, cs => !cs.contains '/'
  | .exact, cs => cs.isEmpty
  | .anything, _ => true

/-- Whether a pattern names the path of one file or directory. -/
def fits (pattern : DirectoryPattern) (path : List Char) : Bool :=
  (after? pattern.letters path).any pattern.ending.admits

end DirectoryPattern

end LicenseAudit
