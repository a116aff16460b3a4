import LicenseAudit.Yaml.Collection

/-!
# Nodes

A node is its properties and its content, both of which may be missing.
Its indentation says whether it has content at all: the line has to be
indented further than the node around, except that the dashes of a block
list may stand below the key that they belong to.  Nodes are nested a
hundred deep at most, so that they are read by recursion on what is left of
that depth.
-/

namespace LicenseAudit.Yaml

/-- The tag of a plain scalar whose meaning is still to be told from its
text. -/
def undecided : String :=
  "?"

/-- The tag of a node that means just what is written. -/
def literalTag : String :=
  "!"

/-- The node with some content. -/
def Node.fill (n : Node) (kind : Option Kind) (v : Yaml) : Node :=
  { n with kind, value := v, filled := true }

/-- The node with the meaning that its tag gives to its content. -/
def Node.settled (n : Node) (c : Cursor) : Reading Node :=
  match n.tag with
  | none => .ok n
  | some name =>
    if name = literalTag then .ok n
    else if name = undecided then
      match n.value with
      | .text s =>
        let tag := if s = "<<" then mergeTag else undecided
        .ok { n with tag := some tag, value := meaning s }
      | v => if n.kind.any (· != .scalar) && !isNull v then c.fail .unfitTag else .ok n
    else
      match Tag.ofName? name with
      | none => c.fail .unknownTag
      | some tag =>
        if n.kind.any (· != tag.kind) then c.fail .unknownTag
        else if n.kind.isNone && !isNull n.value then c.fail .unfitTag
        else
          match tag.read? n.value with
          | none => c.fail .unfitTag
          | some v => .ok { n with value := v }

/-- The value of the alias at the cursor, if there is one. -/
def alias? (n : Node) (c : Cursor) : Reading (Option (Yaml × Cursor)) :=
  if !c.isAt '*' then .ok none
  else do
    let (name, d) ← readName c .namelessAlias
    match d.anchors.lookup name with
    | none => d.fail .unknownAlias
    | some none => d.fail .selfContaining
    | some (some v) =>
      if n.isPresent then d.fail .aliasProperties else return some (v, d.word)

/-- The scalar or alias at the cursor, given the properties before it. -/
def leaf (context : Context) (indent : Nat) (n : Node) (c : Cursor) : Reading (Node × Cursor) := do
  if context.allowsBlocks then
    if let some (s, d) ← block? indent c then return (n.fill (some .scalar) (.text s), d)
  if let some (s, d) ← quoted? c then return (n.fill (some .scalar) (.text s), d)
  if let some (v, d) ← alias? n c then return (n.fill none v, d)
  if let some (s, d) ← plain? (context == .flow) indent c then
    return ({ n with tag := n.tag <|> some undecided }.fill (some .scalar) (.text s), d)
  return (n, c)

/-- The collection in brackets, scalar or alias at the cursor, given the
properties before it.  Properties on the same line may turn out to belong
to the first key of a block object. -/
def simple (node : NodeReader) (context : Context) (indent : Nat) (collections : Bool)
    (start : Option Cursor) (n : Node) (c : Cursor) : Reading (Node × Cursor) := do
  if let some (kind, v, d) ← flow? node n.anchor indent c then return (n.fill (some kind) v, d)
  if context.allowsBlocks && !collections && !(c.isAt '|' || c.isAt '>') then
    if let some start := start then
      if let .object fields d ← blockObject node none start.column indent start then
        return (({} : Node).fill (some .object) (.object fields), d)
  leaf context indent n c

/-- The content at the cursor, given the properties before it.  Where a
block object is looked for in vain, those properties are given up. -/
def content (node : NodeReader) (context : Context) (indent : Nat) (collections : Bool)
    (start : Option Cursor) (n : Node) (c : Cursor) : Reading (Node × Cursor) := do
  if !collections then simple node context indent collections start n c
  else if let some (v, d) ← blockList? node n.anchor c.column c then
    return (n.fill (some .list) v, d)
  else
    match ← blockObject node n.anchor c.column indent c with
    | .object fields d => return (n.fill (some .object) (.object fields), d)
    | .node inner d => return (n.fill inner.kind inner.value, d)
    | .untried => simple node context indent collections start n c
    | .nothing =>
      simple node context indent collections start {} (c.anchor n.anchor (some (.object [])))

/-- The node at the cursor, when the nodes inside it are read by `node`. -/
def nodeWith (node : NodeReader) : NodeReader := fun parent context seek compact c => do
  let blocks := context.allowsBlocks
  let (breaks, c) := if seek then c.toWord else (0, c)
  let opening : Opening :=
    { newLine := breaks != 0
      collections := blocks
      status := if breaks = 0 then .gt else compare (c.indent : Int) parent }
  let (o, c) ←
    if opening.status = .gt then properties blocks parent (c.rest.length + 1) opening c
    else pure (opening, c)
  let collections := o.collections && (o.newLine || compact)
  let bare : Node := { tag := o.tag, anchor := o.anchor }
  let indent := (if blocks then parent + 1 else parent).toNat
  let (n, c) ←
    match o.status with
    | .gt => content node context indent collections o.start bare c
    | .eq =>
      if context = .block ∧ collections then
        match ← blockList? node o.anchor c.column c with
        | some (v, d) => pure (bare.fill (some .list) v, d)
        | none => pure (bare, c)
      else pure (bare, c)
    | .lt => pure (bare, c)
  let n ← n.settled c
  return (n, c.anchor n.anchor (some n.value))

/-- The node at the cursor, when nodes may be nested `depth` deep. -/
def nodeAt : Nat → NodeReader
  | 0 => fun _ _ _ _ c => c.fail .tooDeep
  | depth + 1 => nodeWith (nodeAt depth)

end LicenseAudit.Yaml
