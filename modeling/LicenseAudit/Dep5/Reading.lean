import LicenseAudit.Dep5
import LicenseAudit.Failure
import LicenseAudit.Notice

/-!
# Reading the deprecated manifest

The text is read line by line.  A blank line ends a paragraph, a line that
starts with a number sign is a comment, one that starts with a blank
continues the field above it, and any other must start a field.  Of a field
that a paragraph gives twice the last counts.  The first paragraph is the
header; of the others those with a list of files are kept.
-/

namespace LicenseAudit.Dep5

open Text

/-- Why a text is no deprecated manifest. -/
inductive Fault where
  | strayContinuation (line : Nat)
  | noField (line : Nat)
  | noParagraph
  | noFormat (line : Nat)
  | incomplete (line : Nat)
  | noLicense (line : Nat)
  deriving DecidableEq, Repr

/-- The sentence about a fault of the manifest at a path. -/
def Fault.message (path : String) : Fault → String
  | .strayContinuation n =>
    path ++ ": continuation line without a field at line " ++ toString n
  | .noField n => path ++ ": cannot parse line " ++ toString n
  | .noParagraph => path ++ " is empty"
  | .noFormat n =>
    path ++ ": the first paragraph must declare Format (line " ++ toString n ++ ")"
  | .incomplete n =>
    path ++ ": Files paragraph at line " ++ toString n ++ " needs Copyright and License"
  | .noLicense n =>
    path ++ ": Files paragraph at line " ++ toString n ++ " has an empty License"

/-- The failure that a fault is reported as. -/
def Fault.failure (path : String) (fault : Fault) : Failure :=
  .plain .manifest (fault.message path)

/-- A line of the text. -/
inductive Line where
  | blank
  | comment
  | continuation (value : String)
  | field (name value : String)
  | other
  deriving DecidableEq, Repr

/-- Whether a character may stand in the name of a field. -/
def isNameChar (c : Char) : Bool :=
  c.isAlphanum || c == '-'

/-- The name at the start of a line that a colon follows, in lower case,
and what stands after the colon and one blank. -/
def splitField? (cs : List Char) : Option (String × List Char) :=
  let name := cs.takeWhile isNameChar
  match cs.head?, cs.dropWhile isNameChar with
  | some first, ':' :: rest =>
    let value := if rest.head?.any isBlank then rest.tail else rest
    if first.isAlpha && !value.any isLineEnd then
      some (String.ofList (name.map Char.toLower), value)
    else none
  | _, _ => none

/-- The line that a text is.  In a continuation a single dot stands for an
empty value. -/
def Line.ofChars (cs : List Char) : Line :=
  let value := String.ofList (trim cs)
  if value = "" then .blank
  else
    match cs with
    | [] => .blank
    | c :: _ =>
      if c = '#' then .comment
      else if isBlank c then .continuation (if value = "." then "" else value)
      else
        match splitField? cs with
        | some (name, value) => .field name (String.ofList (trim value))
        | none => .other

/-- A paragraph in progress: the number of its first line, and its fields
with their values, the last field first. -/
structure Block where
  line : Nat
  back : List (String × List String)
  deriving DecidableEq, Repr

/-- The values of a field. -/
def Block.values? (b : Block) (name : String) : Option (List String) :=
  b.back.lookup name

/-- The block with one more value of its last field. -/
def Block.extend (b : Block) (value : String) : Block :=
  match b.back with
  | [] => b
  | (name, values) :: rest => { b with back := (name, values ++ [value]) :: rest }

/-- The block with one more field; an empty value is none. -/
def Block.start (b : Block) (name value : String) : Block :=
  { b with back := (name, if value = "" then [] else [value]) :: b.back }

/-- The paragraphs read so far, and the one that is open. -/
structure Draft where
  closed : List Block
  current : Option Block
  deriving DecidableEq, Repr

/-- All paragraphs of a draft. -/
def Draft.blocks (d : Draft) : List Block :=
  d.closed ++ d.current.toList

/-- The draft after one more line. -/
def Draft.read (d : Draft) (number : Nat) : Line → Except Fault Draft
  | .blank => .ok ⟨d.blocks, none⟩
  | .comment => .ok d
  | .continuation value =>
    match d.current with
    | none => .error (.strayContinuation number)
    | some b => .ok { d with current := some (b.extend value) }
  | .field name value =>
    .ok { d with current := some ((d.current.getD ⟨number, []⟩).start name value) }
  | .other => .error (.noField number)

/-- The lines of a text with their numbers. -/
def linesOf (text : String) : List (Line × Nat) :=
  ((pieces '\n' (unixText text.toList)).map Line.ofChars).zipIdx 1

/-- The paragraphs of a text as they are written. -/
def blocksOf (text : String) : Except Fault (List Block) := do
  let draft ← (linesOf text).foldlM (fun (d : Draft) (line, n) => d.read n line) ⟨[], none⟩
  return Draft.blocks draft

/-- The words of a text. -/
def wordsOf : List Char → List (List Char)
  | [] => []
  | c :: cs =>
    if isBlank c then wordsOf cs
    else
      match cs with
      | [] => [[c]]
      | d :: _ =>
        match isBlank d, wordsOf cs with
        | false, word :: rest => (c :: word) :: rest
        | _, rest => [c] :: rest

/-- The paragraph about files that a block is; a block without a list of
files is none. -/
def Block.paragraph? (b : Block) : Except Fault (Option Paragraph) :=
  match b.values? "files" with
  | none => .ok none
  | some files =>
    match b.values? "copyright", b.values? "license" with
    | some copyrights, some licenses =>
      let license := trimmed (licenses.headD "")
      if license = "" then .error (.noLicense b.line)
      else
        .ok (some
          { patterns := (files.flatMap fun f => wordsOf f.toList).map fun w =>
              Pattern.ofSource (String.ofList w)
            copyrights := (copyrights.map Notice.normalize).filter (!·.isEmpty)
            license })
    | _, _ => .error (.incomplete b.line)

/-- The deprecated manifest that a text at a path is. -/
def parse (path text : String) : Except Fault Dep5 := do
  match ← blocksOf text with
  | [] => .error .noParagraph
  | header :: blocks =>
    if (header.values? "format").isNone then .error (.noFormat header.line)
    else return ⟨path, (← blocks.mapM Block.paragraph?).filterMap id⟩

end LicenseAudit.Dep5
