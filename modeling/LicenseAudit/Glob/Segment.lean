import LicenseAudit.Text.Search

/-!
# Segments of path patterns

A segment of a pattern is a list of **letters**: stars, and characters
that stand for themselves, some of them **marked** by a backslash.  A star
stands for any run of characters.  Three forms have a rule of their own: a
segment without stars is compared as it is, one of nothing but stars
accepts every name that is not empty, and one of stars and a plain tail
accepts the names that end with the tail as it is written, marks
included.  In the other forms a marked bar separates alternatives, of
which only the first is bound to the start of a name and only the last to
its end.
-/

namespace LicenseAudit.Glob

open Text

/-- A letter of a pattern. -/
inductive Letter where
  | star
  | plain (c : Char)
  | marked (c : Char)
  deriving DecidableEq, Repr

/-- The characters that are marked wherever they stand. -/
def isSign (c : Char) : Bool :=
  c == '?' || c == '[' || c == ']' || c == '(' || c == ')'

/-- The letter of a character without a backslash. -/
def Letter.ofChar (c : Char) : Letter :=
  if c = '*' then .star else if isSign c then .marked c else .plain c

/-- The letters of a segment.  A backslash marks the next character, and
at the end it stands for itself. -/
def lettersOf : List Char → List Letter
  | [] => []
  | ['\\'] => [.plain '\\']
  | '\\' :: c :: cs => .marked c :: lettersOf cs
  | c :: cs => .ofChar c :: lettersOf cs

/-- The character that a letter stands for; a star stands for none. -/
def Letter.char? : Letter → Option Char
  | .star => none
  | .plain c => some c
  | .marked c => some c

/-- A letter as it is written. -/
def Letter.written : Letter → List Char
  | .star => ['*']
  | .plain c => [c]
  | .marked c => ['\\', c]

/-- The names of a directory and of the one above it. -/
def isDots (name : List Char) : Bool :=
  name == ['.'] || name == ['.', '.']

/-- Whether the letters spell the name, a star standing for any run. -/
def spells : List Letter → List Char → Bool
  | [], name => name.isEmpty
  | .star :: ls, [] => spells ls []
  | .star :: ls, c :: name => spells ls (c :: name) || spells (.star :: ls) name
  | .plain _ :: _, [] => false
  | .marked _ :: _, [] => false
  | .plain l :: ls, c :: name => l == c && spells ls name
  | .marked l :: ls, c :: name => l == c && spells ls name
termination_by ls name => (ls.length, name.length)

/-- The characters that a plain tail does not contain. -/
def isTailStop (c : Char) : Bool :=
  "+@!?*[(".toList.contains c

/-- The tail after the stars at the start of a segment, as it is written,
when it is plain. -/
def plainTail? (ls : List Letter) : Option (List Char) :=
  match ls with
  | .star :: _ =>
    let tail := (ls.dropWhile (· == .star)).flatMap Letter.written
    if tail.any isTailStop then none else some tail
  | _ => none

/-- The alternatives between marked bars. -/
def alternatives : List Letter → List (List Letter)
  | [] => [[]]
  | l :: ls =>
    if l = .marked '|' then [] :: alternatives ls
    else
      match alternatives ls with
      | [] => [[l]]
      | a :: as => (l :: a) :: as

/-- The alternatives with a star where they are not bound to the start or
the end of a name. -/
def unbound : List (List Letter) → List (List Letter)
  | [] => []
  | [a] => [a]
  | a :: as => (a ++ [.star]) :: (unbound as).map (.star :: ·)

/-- Whether an alternative could spell a dot name by its star: it starts
with at most two dots and a star. -/
def guarded : List Letter → Bool
  | .star :: _ => true
  | a :: .star :: _ => a.char? == some '.'
  | a :: b :: .star :: _ => a.char? == some '.' && b.char? == some '.'
  | _ => false

/-- Whether a segment with stars inside accepts a name. -/
def acceptsStarred (ls : List Letter) (name : List Char) : Bool :=
  match unbound (alternatives ls) with
  | [] => false
  | first :: others =>
    (spells first name && !(guarded ls && isDots name)) || others.any (spells · name)

/-- Whether a segment accepts a name. -/
def accepts (ls : List Letter) (name : List Char) : Bool :=
  if !ls.contains .star then ls.filterMap Letter.char? == name
  else
    match plainTail? ls with
    | some [] => !name.isEmpty && !isDots name
    | some tail => (dropEnd? tail name).isSome
    | none => acceptsStarred ls name

end LicenseAudit.Glob
