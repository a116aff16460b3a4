import LicenseAudit.Yaml.Property

/-!
# Lists and objects

A collection is written in brackets, or as a block in which every entry
begins at the same column.  The entries are nodes themselves; how one is
read is a parameter here.  The keys of an object differ, except that a key
which was merged in may be given again.
-/

namespace LicenseAudit.Yaml

/-- Where a node stands: inside brackets, where a key may, in a block, or
as an entry of a block list. -/
inductive Context where
  | flow
  | key
  | block
  | entry
  deriving DecidableEq, Repr

/-- Whether blocks are allowed in a context. -/
def Context.allowsBlocks : Context → Bool
  | .flow => false
  | .key => false
  | .block => true
  | .entry => true

/-- A node: its tag, anchor, kind and value, and whether it has content. -/
structure Node where
  tag : Option String := none
  anchor : Option String := none
  kind : Option Kind := none
  value : Yaml := .null
  filled : Bool := false

/-- Whether there is a node at all: a property or content. -/
def Node.isPresent (n : Node) : Bool :=
  n.tag.isSome || n.anchor.isSome || n.filled

/-- How the nodes inside a collection are read: given the indentation of
the collection, the context, whether the node may begin on a later line and
whether a block collection may begin on this one. -/
abbrev NodeReader := Int → Context → Bool → Bool → Cursor → Reading (Node × Cursor)

/-- The tag of a key whose value is merged into the object. -/
def mergeTag : String :=
  tagStart ++ "merge"

/-- The entries of an object so far, and which of the keys were merged
in. -/
structure Entries where
  fields : List (String × Yaml) := []
  merged : List String := []

/-- The entries with one given. -/
def Entries.put (es : Entries) (name : String) (v : Yaml) : Entries :=
  { fields := Json.setField es.fields name v, merged := es.merged.filter (· != name) }

/-- The entries with one merged in, unless its key is there. -/
def Entries.putNew (es : Entries) (name : String) (v : Yaml) : Entries :=
  if (es.fields.lookup name).isSome then es
  else { fields := es.fields ++ [(name, v)], merged := name :: es.merged }

/-- The fields of a value that is merged into an object. -/
def mergeable? : Yaml → Option (List (String × Yaml))
  | .object fields => some fields
  | .list items => some (items.zipIdx.map fun (v, i) => (toString i, v))
  | .bytes octets => some (octets.zipIdx.map fun (b, i) => (toString i, .number (.ofInt b)))
  | .moment _ => some []
  | _ => none

/-- The entries with all fields of a value merged in, or those of each
item of a list. -/
def Entries.merge? (es : Entries) (v : Yaml) : Option Entries :=
  let sources :=
    match v with
    | .list items => items
    | v => [v]
  (sources.mapM mergeable?).map fun found =>
    found.flatten.foldl (fun es (name, v) => es.putNew name v) es

/-- The entries with one more; `c` is the place of its key. -/
def Entries.add (es : Entries) (c : Cursor) (tag : Option String) (key value : Yaml) :
    Reading Entries :=
  match key.key? with
  | none => c.fail .nestedKey
  | some name =>
    if tag = some mergeTag then
      match es.merge? value with
      | some es => .ok es
      | none => c.fail .unmergeable
    else if (es.fields.lookup name).isSome && !es.merged.contains name then c.fail .repeatedKey
    else .ok (es.put name value)

/-- The entries of a collection in brackets, from after the bracket or the
last comma, and the cursor after the closing bracket.  `more` says whether
another entry may follow. -/
def flowEntries (node : NodeReader) (isObject : Bool) (indent : Nat) (fuel : Nat) (more : Bool)
    (items : List Yaml) (entries : Entries) (c : Cursor) : Reading (Yaml × Cursor) := do
  match fuel with
  | 0 => c.fail .unclosedCollection
  | fuel + 1 =>
    let c := c.word
    if c.atEnd then c.fail .unclosedCollection
    else if c.isAt (if isObject then '}' else ']') then
      return (if isObject then .object entries.fields else .list items, c.next)
    else if !more then c.fail .missedComma
    else if c.isAt ',' then c.fail .emptyEntry
    else
      let isExplicit := c.isAtWord '?'
      let start := if isExplicit then c.next.word else c
      let (key, d) ← node indent .flow false true start
      let d := d.word
      let isPair := (isExplicit || d.line == start.line) && d.isAt ':'
      let (value, d) ←
        if isPair then node indent .flow false true d.next.word
        else pure (({} : Node), d)
      let isPair := isPair || isExplicit
      let (items, entries) ←
        if isObject then
          pure (items, ← entries.add start key.tag key.value value.value)
        else if isPair then do
          let pair ← Entries.add {} start key.tag key.value value.value
          pure (items ++ [.object pair.fields], entries)
        else pure (items ++ [key.value], entries)
      let d := d.word
      let more := d.isAt ','
      flowEntries node isObject indent fuel more items entries (if more then d.next else d)

/-- The collection in brackets at the cursor, if there is one. -/
def flow? (node : NodeReader) (anchor : Option String) (indent : Nat) (c : Cursor) :
    Reading (Option (Kind × Yaml × Cursor)) :=
  let isObject := c.isAt '{'
  if !isObject && !c.isAt '[' then .ok none
  else do
    let (v, d) ←
      flowEntries node isObject indent (c.rest.length + 1) true [] {} (c.next.anchor anchor none)
    return some (if isObject then .object else .list, v, d)

/-- What follows an entry of a block, and whether the block goes on there:
not when the line is indented less.  A line that is indented further, or
one that goes on, is none of the block. -/
def afterEntry (reason : Reason) (indent : Nat) (line : Nat) (c : Cursor) :
    Reading (Bool × Cursor) :=
  let c := c.word
  if (c.line == line || indent < c.indent) && !c.atEnd then c.fail reason
  else .ok (indent ≤ c.indent, c)

/-- The items of a block list, from the first or next of them. -/
def blockItems (node : NodeReader) (indent : Nat) (fuel : Nat) (c : Cursor) :
    Reading (List Yaml × Cursor) := do
  match fuel with
  | 0 => return ([], c)
  | fuel + 1 =>
    if c.atEnd then return ([], c)
    else if c.tab.isSome then c.fail .tabIndentation
    else if !c.isAtWord '-' then return ([], c)
    else
      let (breaks, start) := c.next.toWord
      if breaks != 0 && start.indent ≤ indent then
        let (items, d) ← blockItems node indent fuel start
        return (.null :: items, d)
      else
        let (item, d) ← node indent .entry false true start
        let (goesOn, d) ← afterEntry .sequenceIndentation indent start.line d
        if goesOn then
          let (items, e) ← blockItems node indent fuel d
          return (item.value :: items, e)
        else return ([item.value], d)

/-- The block list at the cursor, if there is one. -/
def blockList? (node : NodeReader) (anchor : Option String) (indent : Nat) (c : Cursor) :
    Reading (Option (Yaml × Cursor)) :=
  if c.tab.isSome || !c.isAtWord '-' then .ok none
  else do
    let (items, d) ← blockItems node indent (c.rest.length + 1) (c.anchor anchor none)
    return some (.list items, d)

/-- What is found where a block object might be: the object, a node that
is not followed by a colon, or neither. -/
inductive Found where
  | object (fields : List (String × Yaml)) (c : Cursor)
  | node (n : Node) (c : Cursor)
  | nothing
  | untried

/-- A block object in progress: its entries, whether it has begun, and the
explicit key that waits for its value. -/
structure Draft where
  entries : Entries := {}
  begun : Bool := false
  waiting : Option (Yaml × Cursor) := none

/-- The draft in which a waiting key has no value. -/
def Draft.settled (draft : Draft) : Reading Draft :=
  match draft.waiting with
  | none => .ok draft
  | some (key, c) => do
    return { draft with entries := ← draft.entries.add c none key .null, waiting := none }

/-- What a draft comes to at its end. -/
def Draft.finish (draft : Draft) (otherwise : Found) (c : Cursor) : Reading Found := do
  if draft.begun then return .object (← draft.settled).entries.fields c else return otherwise

/-- The entries of a block object, from the first or next of them.
`flowIndent` is how far lines of a key are indented at least. -/
def blockEntries (node : NodeReader) (indent flowIndent : Nat) (fuel : Nat) (draft : Draft)
    (c : Cursor) : Reading Found := do
  match fuel with
  | 0 => draft.finish .untried c
  | fuel + 1 =>
    if c.atEnd then draft.finish .untried c
    else if draft.waiting.isNone && c.tab.isSome then c.fail .tabIndentation
    else
      let goOn (draft : Draft) (d : Cursor) : Reading Found := do
        let (more, d) ← afterEntry .mappingIndentation indent c.line d
        if more then blockEntries node indent flowIndent fuel draft d else draft.finish .untried d
      if c.isAtWord '?' then
        let draft ← draft.settled
        let (key, d) ← node indent .block true true c.next
        goOn { draft with begun := true, waiting := some (key.value, c.next) } d
      else if c.isAtWord ':' then
        match draft.waiting with
        | none => c.fail .missingKey
        | some (key, place) =>
          let (value, d) ← node indent .block true true c.next
          let entries ← draft.entries.add place none key value.value
          goOn { draft with entries, waiting := none } d
      else
        let (key, d) ← node flowIndent .key false true c
        if !key.isPresent then draft.finish .nothing c
        else if d.line != c.line then
          if draft.begun then d.fail .severalLineKey else return .node key d
        else
          let d := d.skip isInline
          if !d.isAt ':' then
            if draft.begun then d.fail .missedColon else return .node key d
          else if !d.next.peek.any isSpace then d.fail .blankExpected
          else
            let draft ← draft.settled
            let (value, e) ← node indent .block true false d.next
            let entries ← draft.entries.add c key.tag key.value value.value
            goOn { draft with entries, begun := true } e

/-- The block object at the cursor, if there is one. -/
def blockObject (node : NodeReader) (anchor : Option String) (indent flowIndent : Nat)
    (c : Cursor) : Reading Found :=
  if c.tab.isSome then .ok .untried
  else blockEntries node indent flowIndent (c.rest.length + 1) {} (c.anchor anchor none)

end LicenseAudit.Yaml
