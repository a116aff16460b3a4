import LicenseAudit.Text.Blank
import LicenseAudit.Text.Position
import LicenseAudit.Text.Search
import LicenseAudit.Toml.Layout

/-!
# Reading TOML documents

A reader takes a value from the start of a text and leaves the rest, or
stops at some place in the text: a failure is the rest of the text at that
place, from which the line that is reported is counted.
-/

namespace LicenseAudit.Toml

open Text

/-- A result, or the rest of the text at the place where reading
stopped. -/
abbrev Stopping := Except (List Char)

/-- Whether a character may not stand in comments and strings. -/
def isControl (c : Char) : Bool :=
  (c.toNat < 0x20 && c != '\t') || c.toNat == 0x7F

/-- The blanks within a line. -/
def isInlineBlank (c : Char) : Bool :=
  c == ' ' || c == '\t'

/-- The text without blanks at its start, within the line. -/
def skipInline (cs : List Char) : List Char :=
  cs.dropWhile isInlineBlank

/-- The text after a comment, its line end still there. -/
def skipComment (start : List Char) : List Char → Stopping (List Char)
  | [] => .ok []
  | '\n' :: cs => .ok ('\n' :: cs)
  | '\r' :: '\n' :: cs => .ok ('\r' :: '\n' :: cs)
  | c :: cs => if isControl c then .error start else skipComment start cs

/-- The text after the blanks, line ends and comments at its start. -/
def skipVoid (fuel : Nat) (cs : List Char) : Stopping (List Char) :=
  match fuel, cs with
  | 0, cs => .ok cs
  | fuel + 1, cs =>
    match cs with
    | ' ' :: rest => skipVoid fuel rest
    | '\t' :: rest => skipVoid fuel rest
    | '\n' :: rest => skipVoid fuel rest
    | '\r' :: '\n' :: rest => skipVoid fuel rest
    | '#' :: rest => do skipVoid fuel (← skipComment cs rest)
    | cs => .ok cs

/-- The text after everything between two values. -/
def skipAll (cs : List Char) : Stopping (List Char) :=
  skipVoid (cs.length + 1) cs

/-- The number of some hexadecimal digits, and what follows. -/
def takeHex? (count : Nat) (cs : List Char) : Option (Nat × List Char) :=
  let ds := cs.take count
  if ds.length = count ∧ ds.all (digitValue · < 16) then
    some (numberOfDigits 16 ds, cs.drop count)
  else none

/-- The character with a number, unless there is none. -/
def charOf? (n : Nat) : Option Char :=
  if n.isValidChar then some (Char.ofNat n) else none

/-- The character that an escape stands for, and what follows; `cs` is
the text after the backslash. -/
def takeEscape? : List Char → Option (Char × List Char)
  | 'b' :: cs => some ('\x08', cs)
  | 't' :: cs => some ('\t', cs)
  | 'n' :: cs => some ('\n', cs)
  | 'f' :: cs => some ('\x0c', cs)
  | 'r' :: cs => some ('\r', cs)
  | 'e' :: cs => some ('\x1b', cs)
  | '"' :: cs => some ('"', cs)
  | '\\' :: cs => some ('\\', cs)
  | 'x' :: cs => do
    let (n, cs) ← takeHex? 2 cs
    return (← charOf? n, cs)
  | 'u' :: cs => do
    let (n, cs) ← takeHex? 4 cs
    return (← charOf? n, cs)
  | 'U' :: cs => do
    let (n, cs) ← takeHex? 8 cs
    return (← charOf? n, cs)
  | _ => none

/-- The rest of a string on one line, up to its closing quote.  `start` is
the text at its opening quote. -/
def takeLine (quote : Char) (start : List Char) (fuel : Nat) (cs : List Char) :
    Stopping (List Char × List Char) :=
  match fuel, cs with
  | 0, _ => .error start
  | _, [] => .error start
  | fuel + 1, c :: rest =>
    if c = quote then .ok ([], rest)
    else if isControl c then .error cs
    else if c = '\\' ∧ quote = '"' then
      match takeEscape? rest with
      | none => .error cs
      | some (d, rest) => do
        let (ds, rest) ← takeLine quote start fuel rest
        return (d :: ds, rest)
    else do
      let (ds, rest) ← takeLine quote start fuel rest
      return (c :: ds, rest)

/-- How many quotes a text starts with, five at most. -/
def quotesAt (quote : Char) (cs : List Char) : Nat :=
  ((cs.take 5).takeWhile (· == quote)).length

/-- The text after an escaped line end and the blanks that follow it. -/
def dropEscapedLineEnd? (cs : List Char) : Option (List Char) :=
  let rest := skipInline cs
  let isSpace (c : Char) := isInlineBlank c || c == '\n' || c == '\r'
  match rest with
  | '\n' :: _ => some (rest.dropWhile isSpace)
  | '\r' :: '\n' :: _ => some (rest.dropWhile isSpace)
  | _ => none

/-- The rest of a string over several lines, up to its three closing
quotes; up to two more belong to the string. -/
def takeBlock (quote : Char) (start : List Char) (fuel : Nat) (cs : List Char) :
    Stopping (List Char × List Char) :=
  match fuel, cs with
  | 0, _ => .error start
  | _, [] => .error start
  | fuel + 1, c :: rest =>
    let quotes := quotesAt quote cs
    if 3 ≤ quotes then .ok (List.replicate (quotes - 3) quote, cs.drop quotes)
    else if c = '\\' ∧ quote = '"' then
      match dropEscapedLineEnd? rest with
      | some rest => takeBlock quote start fuel rest
      | none =>
        match takeEscape? rest with
        | none => .error cs
        | some (d, rest) => do
          let (ds, rest) ← takeBlock quote start fuel rest
          return (d :: ds, rest)
    else if isControl c && c != '\n' && !(c == '\r' && rest.head? == some '\n') then .error cs
    else do
      let (ds, rest) ← takeBlock quote start fuel rest
      return (c :: ds, rest)

/-- The text without one line end at its start. -/
def dropLineEnd : List Char → List Char
  | '\n' :: cs => cs
  | '\r' :: '\n' :: cs => cs
  | cs => cs

/-- The string that starts at the quote `quote`, where `cs` is the text
from that quote on. -/
def takeString (quote : Char) (cs : List Char) : Stopping (String × List Char) := do
  let fuel := cs.length + 1
  let (ds, rest) ←
    if 3 ≤ quotesAt quote cs then takeBlock quote cs fuel (dropLineEnd (cs.drop 3))
    else takeLine quote cs fuel (cs.drop 1)
  return (String.ofList ds, rest)

/-- The characters of a key without quotes. -/
def isKeyChar (c : Char) : Bool :=
  c.isAlphanum || c == '_' || c == '-'

/-- One part of a key. -/
def takeKeyPart (cs : List Char) : Stopping (String × List Char) :=
  match cs with
  | '"' :: _ => if 3 ≤ quotesAt '"' cs then .error cs else takeString '"' cs
  | '\'' :: _ => if 3 ≤ quotesAt '\'' cs then .error cs else takeString '\'' cs
  | cs =>
    let part := cs.takeWhile isKeyChar
    if part.isEmpty then .error cs
    else .ok (String.ofList part, cs.dropWhile isKeyChar)

/-- A key up to the character that ends it. -/
def takeKey (ending : Char) (fuel : Nat) (cs : List Char) : Stopping (List String × List Char) :=
  match fuel with
  | 0 => .error cs
  | fuel + 1 => do
    let (part, rest) ← takeKeyPart (skipInline cs)
    match skipInline rest with
    | '.' :: rest => do
      let (parts, rest) ← takeKey ending fuel rest
      return (part :: parts, rest)
    | c :: rest' => if c = ending then return ([part], rest') else .error (skipInline rest)
    | [] => .error cs

/-- A value outside quotes and brackets: the text up to the line end, or
inside brackets up to a comma or the closing one. -/
def takeScalar (closing : Option Char) (cs : List Char) : Stopping (Value × List Char) :=
  let stops (c : Char) :=
    match closing with
    | none => c == '\n'
    | some close => c == ',' || c == close || c == '#'
  let raw := cs.takeWhile (!stops ·)
  let trimmedRaw := trimRight (raw.takeWhile (· != '#'))
  if closing.isSome && !(cs.any fun c => c == ',' || some c == closing) then .error cs
  else
    match scalar? trimmedRaw with
    | none => .error cs
    | some v => .ok (v, cs.drop trimmedRaw.length)

mutual

/-- A value; `closing` is the bracket around it. -/
def takeValue (fuel : Nat) (closing : Option Char) (cs : List Char) :
    Stopping (Value × List Char) :=
  match fuel with
  | 0 => .error cs
  | fuel + 1 =>
    match cs with
    | '"' :: _ => do
      let (s, rest) ← takeString '"' cs
      return (.text s, rest)
    | '\'' :: _ => do
      let (s, rest) ← takeString '\'' cs
      return (.text s, rest)
    | '[' :: rest => do
      let (items, rest) ← takeItems fuel rest
      return (.array items, rest)
    | '{' :: rest => do
      let (fields, rest) ← takeFields fuel [] rest
      return (.table (fieldValues fields), rest)
    | cs => takeScalar closing cs

/-- The rest of an array. -/
def takeItems (fuel : Nat) (cs : List Char) : Stopping (List Value × List Char) :=
  match fuel with
  | 0 => .error cs
  | fuel + 1 => do
    let cs ← skipAll cs
    match cs with
    | [] => .error cs
    | ']' :: rest => return ([], rest)
    | ',' :: _ => .error cs
    | cs => do
      let (v, rest) ← takeValue fuel (some ']') cs
      let rest ← skipAll rest
      match rest with
      | ',' :: rest => do
        let (vs, rest) ← takeItems fuel rest
        return (v :: vs, rest)
      | ']' :: rest => return ([v], rest)
      | rest => .error rest

/-- The rest of a table in braces, after the fields read so far. -/
def takeFields (fuel : Nat) (fields : Fields) (cs : List Char) : Stopping (Fields × List Char) :=
  match fuel with
  | 0 => .error cs
  | fuel + 1 => do
    let cs ← skipAll cs
    match cs with
    | [] => .error cs
    | '}' :: rest => return (fields, rest)
    | ',' :: _ => .error cs
    | cs => do
      let (keys, rest) ← takeKey '=' (cs.length + 1) cs
      let (v, rest) ← takeValue fuel (some '}') (skipInline rest)
      match assign v keys fields with
      | none => .error cs
      | some fields => do
        let rest ← skipAll rest
        match rest with
        | ',' :: rest => takeFields fuel fields rest
        | '}' :: rest => return (fields, rest)
        | rest => .error rest

end

/-- A document in progress: the fields of its root, and the path of the
table that is open. -/
structure Draft where
  root : Fields
  path : List String

/-- The draft after the header or assignment at the start of a text. -/
def takeStatement (draft : Draft) (cs : List Char) : Stopping (Draft × List Char) :=
  let fuel := cs.length + 1
  let header (declare : Option Node → Option Node) (keys : List String) (rest : List Char) :
      Stopping (Draft × List Char) :=
    match alterAlong (alter (keys.getLastD "") declare) keys.dropLast draft.root with
    | none => .error cs
    | some root => .ok (⟨root, keys⟩, rest)
  match cs with
  | '[' :: '[' :: rest => do
    let (keys, rest) ← takeKey ']' fuel rest
    match rest with
    | ']' :: rest => header declareNext keys rest
    | rest => .error rest
  | '[' :: rest => do
    let (keys, rest) ← takeKey ']' fuel rest
    header declareTable keys rest
  | cs => do
    let (keys, rest) ← takeKey '=' fuel cs
    let (v, rest) ← takeValue fuel none (skipInline rest)
    match alterAlong (assign v keys) draft.path draft.root with
    | none => .error cs
    | some root => .ok ({ draft with root }, rest)

/-- The text after the end of a statement's line. -/
def skipStatementEnd (cs : List Char) : Stopping (List Char) := do
  let rest := skipInline cs
  let rest ←
    match rest with
    | '#' :: inner => skipComment rest inner
    | rest => pure rest
  match rest with
  | [] => return []
  | '\n' :: _ => return rest
  | '\r' :: '\n' :: _ => return rest
  | rest => .error rest

/-- The draft after all statements of a text. -/
def takeStatements (fuel : Nat) (draft : Draft) (cs : List Char) :
    Stopping Draft :=
  match fuel with
  | 0 => .error cs
  | fuel + 1 => do
    let cs ← skipAll cs
    if cs.isEmpty then return draft
    let (draft, rest) ← takeStatement draft cs
    takeStatements fuel draft (← skipStatementEnd rest)

/-- The root table of a document, or the place where reading stopped.  A
byte order mark at the start is skipped. -/
def parse (text : String) : Except Position (List (String × Value)) :=
  let cs :=
    match text.toList with
    | '\uFEFF' :: cs => cs
    | cs => cs
  match takeStatements (cs.length + 1) ⟨[], []⟩ cs with
  | .ok draft => .ok (fieldValues draft.root)
  | .error rest => .error (Position.atEnd ⟨1, 1⟩ (cs.take (cs.length - rest.length)))

end LicenseAudit.Toml
