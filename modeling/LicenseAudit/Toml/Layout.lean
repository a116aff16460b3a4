import LicenseAudit.Toml

/-!
# The tables of a TOML document

A document is laid out by headers and assignments.  Every table remembers
how it came about, because that decides who may add to it: a header may
not declare a table twice, and a dotted key may only extend tables that
dotted keys made.
-/

namespace LicenseAudit.Toml

/-- How a table came about: named on the way to another, declared by a
header, or made by a dotted key. -/
inductive Origin where
  | implied
  | declared
  | dotted
  deriving DecidableEq, Repr

/-- What a key stands for: a value, a table, or a list of tables of which
the last is open. -/
inductive Node where
  | value (v : Value)
  | table (origin : Origin) (fields : List (String × Node))
  | tables (closed : List (List (String × Node))) (last : List (String × Node))

/-- The keys of a table in progress. -/
abbrev Fields := List (String × Node)

/-- The fields after a change to one key, `change` seeing what the key
stands for. -/
def alter (name : String) (change : Option Node → Option Node) : Fields → Option Fields
  | [] => (change none).map fun node => [(name, node)]
  | (n, node) :: rest =>
    if n = name then (change (some node)).map fun node => (n, node) :: rest
    else (alter name change rest).map ((n, node) :: ·)

/-- The node after a change to the fields of its open table. -/
def Node.alterFields (change : Fields → Option Fields) : Node → Option Node
  | .value _ => none
  | .table origin fields => (change fields).map (.table origin)
  | .tables closed last => (change last).map (.tables closed)

/-- A change to the table that a header path leads to; tables on the way
are implied. -/
def alterAlong (change : Fields → Option Fields) : List String → Fields → Option Fields
  | [], fields => change fields
  | key :: keys, fields =>
    alter key (fun node =>
      (node.getD (.table .implied [])).alterFields (alterAlong change keys)) fields

/-- The node that a header for one table makes of a key. -/
def declareTable : Option Node → Option Node
  | none => some (.table .declared [])
  | some (.table .implied fields) => some (.table .declared fields)
  | some _ => none

/-- The node that a header for one more table of a list makes of a key. -/
def declareNext : Option Node → Option Node
  | none => some (.tables [] [])
  | some (.tables closed last) => some (.tables (closed ++ [last]) [])
  | some _ => none

/-- The fields with a value assigned to a dotted key. -/
def assign (v : Value) : List String → Fields → Option Fields
  | [], _ => none
  | [key], fields =>
    alter key (fun
      | none => some (.value v)
      | some _ => none) fields
  | key :: keys, fields =>
    alter key (fun
      | none => (assign v keys []).map (.table .dotted)
      | some (.table .dotted inner) => (assign v keys inner).map (.table .dotted)
      | some _ => none) fields

mutual

/-- The value that a node amounts to. -/
def Node.toValue : Node → Value
  | .value v => v
  | .table _ fields => .table (fieldValues fields)
  | .tables closed last => .array (tableValues closed ++ [.table (fieldValues last)])

/-- The fields of a table as values. -/
def fieldValues : List (String × Node) → List (String × Value)
  | [] => []
  | (name, node) :: rest => (name, node.toValue) :: fieldValues rest

/-- The tables of a list as values. -/
def tableValues : List (List (String × Node)) → List Value
  | [] => []
  | fields :: rest => .table (fieldValues fields) :: tableValues rest

end

end LicenseAudit.Toml
