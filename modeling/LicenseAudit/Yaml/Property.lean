import LicenseAudit.Text.Search
import LicenseAudit.Text.Utf8
import LicenseAudit.Yaml.Scalar
import LicenseAudit.Yaml.Tag

/-!
# Properties of a node

Before its content a node may name its tag and an anchor, in either order.
A tag is written with a handle, which the document may have declared, or in
full between angle brackets; either way bytes may be written as two
hexadecimal digits after a percent sign.
-/

namespace LicenseAudit.Yaml

open Text

/-- The bytes of a text in which a percent sign and two hexadecimal digits
stand for one. -/
def percentBytes? : List Char → Option (List UInt8)
  | [] => some []
  | '%' :: a :: b :: rest =>
    if digitValue a < 16 ∧ digitValue b < 16 then
      (percentBytes? rest).map (UInt8.ofNat (16 * digitValue a + digitValue b) :: ·)
    else none
  | '%' :: _ => none
  | c :: rest => (percentBytes? rest).map (Utf8.encode (String.singleton c) ++ ·)

/-- The text that those bytes are, when they are one. -/
def percentDecoded? (cs : List Char) : Option String := do
  let bytes ← percentBytes? cs
  let s := String.ofList (Utf8.decode bytes)
  if Utf8.encode s = bytes then some s else none

/-- Whether a character may stand in a tag as it is. -/
def isTagChar (c : Char) : Bool :=
  c.isAlphanum || "-#;/?:@&=+$,_.!~*'()[]".toList.contains c

/-- Whether a text consists of characters of tags and percent codes. -/
def isTagText : List Char → Bool
  | [] => true
  | '%' :: a :: b :: rest => digitValue a < 16 && digitValue b < 16 && isTagText rest
  | c :: rest => isTagChar c && isTagText rest

/-- Whether a text may be a tag: its first character is free, but for the
marks of flow collections. -/
def isTag : List Char → Bool
  | [] => false
  | c :: rest => !isFlowMark c && c.toNat < 0x10000 && isTagText rest

/-- Whether a text is a tag handle: one or two marks, or a word between
marks. -/
def isHandle (cs : List Char) : Bool :=
  match cs with
  | '!' :: rest =>
    rest.isEmpty ||
      (rest.getLast? == some '!' && rest.dropLast.all fun c => c.isAlpha || c == '-')
  | _ => false

/-- The tag of a name, percent codes read. -/
def tagName (c : Cursor) (cs : List Char) : Reading String :=
  if !cs.isEmpty && !isTag cs then c.fail .malformedTag
  else
    match percentDecoded? cs with
    | some name => .ok name
    | none => c.fail .malformedTag

/-- What a handle stands for. -/
def handleText (c : Cursor) (handle : String) : Reading String :=
  match c.handles.lookup handle with
  | some start => .ok start
  | none =>
    if handle = "!" then .ok "!"
    else if handle = "!!" then .ok tagStart
    else c.fail .unknownHandle

/-- The tag at the cursor, which is at its first mark, and the cursor
after it. -/
def readTag (c : Cursor) : Reading (String × Cursor) :=
  match c.rest with
  | '!' :: '<' :: rest => do
    let name := rest.take 1 ++ (rest.drop 1).takeWhile (· != '>')
    if rest.length ≤ name.length then c.fail .malformedTag
    else return (← tagName c name, c.advance (name.length + 3))
  | _ => do
    let (written, d) := c.span (!isSpace ·)
    let (handle, ending) :=
      match written.drop 1 with
      | '!' :: ending => (['!', '!'], ending)
      | rest =>
        match cut? ['!'] rest with
        | some (word, ending) => ('!' :: (word ++ ['!']), ending)
        | none => (['!'], rest)
    if !isHandle handle || ending.contains '!' || ending.any isFlowMark then c.fail .malformedTag
    else
      let name ← tagName c ending
      return ((← handleText c (String.ofList handle)) ++ name, d)

/-- The name of an anchor or alias at the cursor, which is at its mark,
and the cursor after it. -/
def readName (c : Cursor) (nameless : Reason) : Reading (String × Cursor) :=
  let (name, d) := c.next.span fun ch => !(isSpace ch || isFlowMark ch)
  if name.isEmpty then d.fail nameless else .ok (String.ofList name, d)

/-- What stands before the content of a node: its properties, where they
begin, whether a new line was begun, whether a block collection may follow,
and how the line is indented in comparison with the node around. -/
structure Opening where
  tag : Option String := none
  anchor : Option String := none
  start : Option Cursor := none
  newLine : Bool
  collections : Bool
  status : Ordering

/-- The opening after one more property, which begins at `start`, and the
cursor at what follows.  `blocks` says whether block collections are
allowed here at all, `parent` how the node around is indented. -/
def Opening.after (o : Opening) (blocks : Bool) (parent : Int) (start c : Cursor) :
    Opening × Cursor :=
  let (breaks, d) := c.toWord
  let o := { o with start := o.start <|> some start }
  if breaks = 0 then ({ o with collections := false }, d)
  else
    let status := compare (d.indent : Int) parent
    ({ o with newLine := true, collections := blocks, status }, d)

/-- The opening after the properties at the cursor, and the cursor at what
follows. -/
def properties (blocks : Bool) (parent : Int) (fuel : Nat) (o : Opening) (c : Cursor) :
    Reading (Opening × Cursor) :=
  match fuel with
  | 0 => .ok (o, c)
  | fuel + 1 =>
    if c.isAt '!' then
      if o.tag.isSome then if o.newLine then .ok (o, c) else c.fail .repeatedTag
      else do
        let (tag, d) ← readTag c
        let (o, e) := { o with tag := some tag }.after blocks parent c d
        properties blocks parent fuel o e
    else if c.isAt '&' then
      if o.anchor.isSome then if o.newLine then .ok (o, c) else c.fail .repeatedAnchor
      else do
        let (name, d) ← readName c .namelessAnchor
        let (o, e) := { o with anchor := some name }.after blocks parent c d
        properties blocks parent fuel o e
    else .ok (o, c)

end LicenseAudit.Yaml
