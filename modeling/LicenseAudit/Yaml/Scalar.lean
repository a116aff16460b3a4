import LicenseAudit.Text.Digits
import LicenseAudit.Yaml.Cursor

/-!
# Scalars as they are written

A scalar is written plain, between quotes, or as a block of indented lines.
Line ends inside a plain or quoted scalar are folded: one becomes a space,
and of several the first is dropped.  A block keeps its line ends, or folds
those between lines that are equally indented.
-/

namespace LicenseAudit.Yaml

open Text

/-- What some line ends inside a scalar stand for. -/
def folded (breaks : Nat) : List Char :=
  if breaks = 0 then [] else if breaks = 1 then [' '] else List.replicate (breaks - 1) '\n'

/-- The text without the blanks at its end. -/
def trimInline (cs : List Char) : List Char :=
  (cs.reverse.dropWhile isInline).reverse

/-- The text of a scalar, when all its characters may stand in a
document. -/
def printable (c : Cursor) (cs : List Char) : Reading String :=
  if cs.any isForbidden then c.fail .controlCharacter else .ok (String.ofList cs)

/-- Whether a plain scalar may begin with the next character. -/
def beginsPlain (inFlow : Bool) (c : Cursor) : Bool :=
  let reserved := ['#', '&', '*', '!', '|', '>', '\'', '"', '%', '@', '\x60']
  match c.rest with
  | [] => false
  | ch :: rest =>
    let alone := rest.head?.any fun d => isSpace d || (inFlow && isFlowMark d)
    !(isSpace ch || isFlowMark ch || reserved.contains ch || ((ch == '?' || ch == '-') && alone))

/-- The part of a plain scalar within one line: up to a colon before a
blank, a comment, the line end, or a mark of a flow collection. -/
def plainRun (inFlow : Bool) (last : Option Char) : List Char → List Char
  | [] => []
  | ch :: rest =>
    let stops :=
      isBreak ch || (inFlow && isFlowMark ch) || (ch == '#' && last.any isSpace) ||
        (ch == ':' && rest.head?.any fun d => isSpace d || (inFlow && isFlowMark d))
    if stops then [] else ch :: plainRun inFlow (some ch) rest

/-- The lines of a plain scalar, those after the first indented by
`indent` at least. -/
def plainLines (inFlow : Bool) (indent : Nat) (fuel : Nat) (c : Cursor) : List Char × Cursor :=
  let run := if c.atSeparator then [] else plainRun inFlow c.last c.rest
  let content := trimInline run
  let stop := c.advance run.length
  match fuel, stop.nextLine? with
  | fuel + 1, some _ =>
    let (breaks, d) := stop.toContent
    if d.indent < indent then (content, c.advance content.length)
    else
      let (more, e) := plainLines inFlow indent fuel d
      (content ++ (if more.isEmpty then [] else folded breaks ++ more), e)
  | _, _ => (content, stop)

/-- The plain scalar at the cursor, if there is one. -/
def plain? (inFlow : Bool) (indent : Nat) (c : Cursor) : Reading (Option (String × Cursor)) :=
  if !beginsPlain inFlow c then .ok none
  else
    let (content, d) := plainLines inFlow indent c.rest.length c
    if content.isEmpty then .ok none
    else do return some (← printable d content, d)

/-- The units that an escape of one letter stands for. -/
def simpleEscape? : Char → Option Nat
  | '0' => some 0x00
  | 'a' => some 0x07
  | 'b' => some 0x08
  | 't' => some 0x09
  | '\t' => some 0x09
  | 'n' => some 0x0A
  | 'v' => some 0x0B
  | 'f' => some 0x0C
  | 'r' => some 0x0D
  | 'e' => some 0x1B
  | ' ' => some 0x20
  | '"' => some 0x22
  | '/' => some 0x2F
  | '\\' => some 0x5C
  | 'N' => some 0x85
  | '_' => some 0xA0
  | 'L' => some 0x2028
  | 'P' => some 0x2029
  | _ => none

/-- How many hexadecimal digits follow the letter of an escape. -/
def escapeDigits? : Char → Option Nat
  | 'x' => some 2
  | 'u' => some 4
  | 'U' => some 8
  | _ => none

/-- The units of a character given by its number; of a number beyond all
characters, the units that its lower bits make. -/
def unitsOfNumber (n : Nat) : List Nat :=
  if n < 0x10000 then [n]
  else if 0x80000000 ≤ n then [n % 0x10000]
  else
    let beyond := n - 0x10000
    [(0xD800 + beyond / 0x400) % 0x10000, 0xDC00 + beyond % 0x400]

/-- The units that an escape stands for, and the cursor after it; the
cursor is after the backslash. -/
def escape (c : Cursor) : Reading (List Nat × Cursor) :=
  match c.peek with
  | none => c.fail .unknownEscape
  | some letter =>
    match simpleEscape? letter, escapeDigits? letter with
    | some unit, _ => .ok ([unit], c.next)
    | none, none => c.fail .unknownEscape
    | none, some count =>
      let ds := c.next.rest.take count
      if ds.length = count ∧ ds.all (digitValue · < 16) then
        .ok (unitsOfNumber (numberOfDigits 16 ds), c.advance (count + 1))
      else c.fail .hexadecimalExpected

/-- The units of the rest of a quoted scalar, and the cursor after its
closing quote.  `held` are blanks that belong to the scalar unless the line
ends after them; only double quotes know escapes, and only in single quotes
a quote is written twice. -/
def quotedUnits (quote : Char) (fuel : Nat) (held : List Char) (c : Cursor) :
    Reading (List Nat × Cursor) :=
  match fuel, c.rest with
  | 0, _ => c.fail .unclosedQuote
  | _, [] => c.fail .unclosedQuote
  | fuel + 1, ch :: rest =>
    let after (units : List Nat) (d : Cursor) : Reading (List Nat × Cursor) := do
      let (more, e) ← quotedUnits quote fuel [] d
      return (units ++ more, e)
    let blanks := unitsOf held
    if ch = quote then
      if quote = '\'' ∧ rest.head? = some quote then
        after (blanks ++ Text.units quote) (c.advance 2)
      else .ok (blanks, c.next)
    else if ch = '\\' ∧ quote = '"' then
      match c.next.nextLine? with
      | some _ => after blanks c.next.toContent.2
      | none => do
        let (units, d) ← escape c.next
        after (blanks ++ units) d
    else if isBreak ch then
      let (breaks, d) := c.toContent
      after (unitsOf (folded breaks)) d
    else if c.atSeparator then c.fail .unclosedQuote
    else if isInline ch then quotedUnits quote fuel (held ++ [ch]) c.next
    else if ch.toNat < 0x20 then c.fail .controlCharacter
    else after (blanks ++ Text.units ch) c.next

/-- The quoted scalar at the cursor, if there is one. -/
def quoted? (c : Cursor) : Reading (Option (String × Cursor)) :=
  match c.peek with
  | none => .ok none
  | some quote =>
    if quote = '"' ∨ quote = '\'' then do
      let (units, d) ← quotedUnits quote c.rest.length [] c.next
      return some (String.ofList (ofUnits units), d)
    else .ok none

/-- What becomes of the line ends at the end of a block. -/
inductive Chomping where
  | clip
  | strip
  | keep
  deriving DecidableEq, Repr

/-- How a block is written. -/
structure BlockStyle where
  folds : Bool
  chomping : Chomping := .clip
  width : Option Nat := none

/-- A block in progress: its indentation, whether that is settled, whether
it has content, whether its last line was indented further, and how many
empty lines came after that. -/
structure Block where
  indent : Nat
  settled : Bool
  begun : Bool := false
  further : Bool := false
  empties : Nat := 0

/-- The style that the marks after the first one of a block give, and the
cursor after them. -/
def blockStyle (style : BlockStyle) (fuel : Nat) (c : Cursor) : Reading (BlockStyle × Cursor) :=
  match fuel, c.peek with
  | fuel + 1, some ch =>
    if ch = '+' ∨ ch = '-' then
      if style.chomping = .clip then
        blockStyle { style with chomping := if ch = '+' then .keep else .strip } fuel c.next
      else c.fail .repeatedChomping
    else if ch = '0' then c.fail .zeroIndentation
    else if ch.isDigit then
      if style.width.isNone then
        blockStyle { style with width := some (digitValue ch) } fuel c.next
      else c.fail .repeatedIndentation
    else .ok (style, c)
  | _, _ => .ok (style, c)

/-- The line ends at the end of a block. -/
def Block.ending (b : Block) : Chomping → List Char
  | .keep => List.replicate (if b.begun then b.empties + 1 else b.empties) '\n'
  | .clip => if b.begun then ['\n'] else []
  | .strip => []

/-- What stands between the lines before and the next one, which begins
with a blank or not. -/
def Block.between (b : Block) (folds blank : Bool) : List Char :=
  let kept := List.replicate (if b.begun then b.empties + 1 else b.empties) '\n'
  if !folds || blank then kept
  else if b.further then List.replicate (b.empties + 1) '\n'
  else if b.empties = 0 then (if b.begun then [' '] else [])
  else List.replicate b.empties '\n'

/-- The lines of a block, from the end of the line before. -/
def blockLines (style : BlockStyle) (fuel : Nat) (b : Block) (c : Cursor) :
    Reading (List Char × Cursor) :=
  match fuel with
  | 0 => .ok ([], c)
  | fuel + 1 =>
    if c.atEnd then .ok ([], c)
    else do
      let start ← c.nextLine
      let spaces := (start.rest.takeWhile (· == ' ')).length
      let spaces := if b.settled then min spaces b.indent else spaces
      let d := { start.advance spaces with indent := spaces }
      let b := if b.settled then b else { b with indent := max b.indent spaces }
      if d.peek.any isBreak then blockLines style fuel { b with empties := b.empties + 1 } d
      else if !b.settled && b.indent == 0 then d.fail .missingIndentation
      else if spaces < b.indent then return (b.ending style.chomping, d)
      else
        let blank := d.peek.any isInline
        let (content, e) := d.span (!isBreak ·)
        let further := blank || (!style.folds && b.further)
        let after : Block :=
          { indent := b.indent, settled := true, begun := true, further, empties := 0 }
        let (more, e) ← blockLines style fuel after e
        return (b.between style.folds blank ++ content ++ more, e)

/-- The block scalar at the cursor, if there is one. -/
def block? (indent : Nat) (c : Cursor) : Reading (Option (String × Cursor)) :=
  if !(c.isAt '|' || c.isAt '>') then .ok none
  else do
    let (style, d) ← blockStyle ⟨c.isAt '>', .clip, none⟩ c.rest.length c.next
    let e := d.skip isInline
    let e := if d.peek.any isInline && e.isAt '#' then e.toLineEnd else e
    let b : Block :=
      match style.width with
      | none => ⟨indent, false, false, false, 0⟩
      | some width => ⟨indent + width - 1, true, false, false, 0⟩
    let (content, e) ← blockLines style (e.rest.length + 1) b e
    return some (← printable e content, e)

end LicenseAudit.Yaml
