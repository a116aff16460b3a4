import LicenseAudit.Yaml.Node

/-!
# Reading YAML documents

A stream holds any number of documents, each with directives before it if
they are followed by three dashes.  `parse` reads a stream that holds one
document at most.
-/

namespace LicenseAudit.Yaml

open Text

/-- How deep nodes may be nested. -/
def maxDepth : Nat :=
  100

/-- The words in the rest of a line, up to a comment, and the cursor after
them. -/
def directiveWords (fuel : Nat) (c : Cursor) : List (List Char) × Cursor :=
  let c := c.skip isInline
  let (word, d) := c.span (!isSpace ·)
  match fuel, word with
  | 0, _ => ([], c)
  | _, [] => ([], c)
  | fuel + 1, word =>
    if word.head? = some '#' then ([], c.toLineEnd)
    else
      let (more, d) := directiveWords fuel d
      (word :: more, d)

/-- Whether a text is a version that documents may ask for: the first, in
any edition. -/
def isVersion (word : List Char) : Bool :=
  match cut? ['.'] word with
  | some (major, minor) =>
    !major.isEmpty && major.all Char.isDigit && numberOfDigits 10 major == 1 &&
      !minor.isEmpty && minor.all Char.isDigit
  | none => false

/-- The cursor after a directive has taken effect; `versioned` says whether
a version was asked for before. -/
def direct (versioned : Bool) (name : List Char) (words : List (List Char)) (c : Cursor) :
    Reading (Bool × Cursor) :=
  if name = "YAML".toList then
    match words with
    | [version] =>
      if !versioned && isVersion version then .ok (true, c) else c.fail .malformedDirective
    | _ => c.fail .malformedDirective
  else if name = "TAG".toList then
    match words with
    | [handle, start] =>
      let name := String.ofList handle
      if isHandle handle && (c.handles.lookup name).isNone && isTag start then
        match percentDecoded? start with
        | some full => .ok (versioned, { c with handles := (name, full) :: c.handles })
        | none => c.fail .malformedDirective
      else c.fail .malformedDirective
    | _ => c.fail .malformedDirective
  else .ok (versioned, c)

/-- The cursor after the directives of a document, and whether there are
any. -/
def directives (fuel : Nat) (versioned : Bool) (c : Cursor) : Reading (Bool × Cursor) := do
  let c := c.word
  match fuel with
  | 0 => return (false, c)
  | fuel + 1 =>
    if c.indent != 0 || !c.isAt '%' then return (false, c)
    else
      let (name, d) := c.next.span (!isSpace ·)
      if name.isEmpty then d.fail .malformedDirective
      else
        let (words, d) := directiveWords d.rest.length d
        let (versioned, d) ← direct versioned name words (← d.nextLine)
        let (_, d) ← directives fuel versioned d
        return (true, d)

/-- The value of the document at the cursor, and the cursor after it. -/
def document (c : Cursor) : Reading (Yaml × Cursor) := do
  let fresh : Cursor := { c with anchors := [], handles := [] }
  let (directed, c) ← directives c.rest.length false fresh
  let isMarked := c.indent == 0 && c.rest.take 3 == ['-', '-', '-']
  if directed && !isMarked then c.fail .directivesEnd
  else
    let c := if isMarked then (c.advance 3).word else c
    let (n, d) ← nodeAt maxDepth ((c.indent : Int) - 1) .block false true c
    let d := d.word
    if d.atSeparator then
      return (n.value, if d.isAt '.' then (d.advance 3).word else d)
    else if 1 < d.rest.length then d.fail .documentEnd
    else return (n.value, d)

/-- The values of the documents from the cursor on. -/
def documents (fuel : Nat) (c : Cursor) : Reading (List Yaml) := do
  match fuel with
  | 0 => return []
  | fuel + 1 =>
    if c.rest.length ≤ 1 then return []
    else
      let (v, d) ← document c
      return v :: (← documents fuel d)

/-- The characters of a stream: the last line is ended, and a byte order
mark at the start is left out. -/
def streamOf (text : String) : List Char :=
  let cs := text.toList
  let ended := if cs.getLast?.all isBreak then cs else cs ++ ['\n']
  match ended with
  | '\uFEFF' :: rest => rest
  | cs => cs

/-- The value of a stream of one document; there is none in an empty
stream. -/
def parse (text : String) : Reading (Option Yaml) := do
  let start : Cursor := { rest := streamOf text }
  if start.rest.contains '\x00' then (start.skip (· != '\x00')).fail .nullCharacter
  else
    match ← documents start.rest.length start.indented with
    | [] => return none
    | [v] => return some v
    | _ => .error ⟨.severalDocuments, none⟩

end LicenseAudit.Yaml
