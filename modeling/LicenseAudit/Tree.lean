import LicenseAudit.Failure
import LicenseAudit.Path

/-!
# File trees

A tree is a file with its bytes, a link to another path, or a folder of
named trees.  A path is followed from the root of a tree name by name; a
link on the way is replaced by the path that it stands for, at most forty
times.  What keeps a path from leading somewhere is an **obstacle**, and an
operation that fails for it says which operation and which path it was.
-/

namespace LicenseAudit

open Text

/-- A tree of files. -/
inductive Tree where
  | file (bytes : List UInt8)
  | link (target : String)
  | folder (entries : List (String × Tree))
  deriving Inhabited

/-- Why a path does not lead where it should. -/
inductive Obstacle where
  | missing
  | notFolder
  | isFolder
  | exists
  | tooManyLinks
  | nameTooLong
  | badHandle
  deriving DecidableEq, Repr

/-- The code and the sentence of an obstacle. -/
def Obstacle.text : Obstacle → String
  | .missing => "ENOENT: no such file or directory"
  | .notFolder => "ENOTDIR: not a directory"
  | .isFolder => "EISDIR: illegal operation on a directory"
  | .exists => "EEXIST: file already exists"
  | .tooManyLinks => "ELOOP: too many symbolic links encountered"
  | .nameTooLong => "ENAMETOOLONG: name too long"
  | .badHandle => "EBADF: bad file descriptor"

/-- A failed operation on a path, or on a file that is open already. -/
structure FileError where
  obstacle : Obstacle
  operation : String
  path : Option String
  deriving DecidableEq, Repr

/-- The sentence about a failed operation. -/
def FileError.message (e : FileError) : String :=
  e.obstacle.text ++ ", " ++ e.operation ++
    match e.path with
    | some path => " '" ++ path ++ "'"
    | none => ""

/-- The failure that a failed operation is reported as. -/
def FileError.failure (e : FileError) : Failure :=
  .plain .general e.message

namespace Tree

/-- An empty folder. -/
def empty : Tree :=
  .folder []

/-- The tree under a name in a folder. -/
def child? (name : String) : Tree → Option Tree
  | .folder entries => entries.lookup name
  | _ => none

/-- The tree at the end of some steps; links are not followed. -/
def at? (t : Tree) : List String → Option Tree
  | [] => some t
  | name :: rest => (t.child? name).bind (at? · rest)

/-- The entries of a folder with one replaced or added at the end. -/
def setEntry (name : String) (t : Tree) : List (String × Tree) → List (String × Tree)
  | [] => [(name, t)]
  | (n, old) :: rest => if n = name then (n, t) :: rest else (n, old) :: setEntry name t rest

/-- The entries of a folder; anything else has none. -/
def entries : Tree → List (String × Tree)
  | .folder entries => entries
  | _ => []

/-- The tree with `new` at the end of some steps; folders on the way are
made. -/
def put (t : Tree) (steps : List String) (new : Tree) : Tree :=
  match steps with
  | [] => new
  | name :: rest =>
    let inner := (t.entries.lookup name).getD empty
    .folder (setEntry name (inner.put rest new) t.entries)

/-- The tree without what is at the end of some steps. -/
def erase (t : Tree) (steps : List String) : Tree :=
  match steps, t with
  | [], t => t
  | [name], .folder entries => .folder (entries.filter fun (n, _) => n != name)
  | name :: rest, .folder entries =>
    match entries.lookup name with
    | none => .folder entries
    | some inner => .folder (setEntry name (inner.erase rest) entries)
  | _ :: _, t => t

/-- How many links may be followed on the way along one path. -/
def linkLimit : Nat := 40

/-- How many bytes a name may have. -/
def nameLimit : Nat := 255

/-- The steps to where names lead from the folder at the steps `here`,
through at most `links` links. -/
def follow (root : Tree) (links : Nat) (here : List String) (names : List String) :
    Except Obstacle (List String) :=
  match names with
  | [] => .ok here
  | name :: rest =>
    if name = "" ∨ name = "." then follow root links here rest
    else if name = ".." then follow root links here.dropLast rest
    else if name.utf8ByteSize > nameLimit then .error .nameTooLong
    else
      match root.at? (here ++ [name]) with
      | none => .error .missing
      | some (.folder _) => follow root links (here ++ [name]) rest
      | some (.file _) => if rest.isEmpty then .ok (here ++ [name]) else .error .notFolder
      | some (.link target) =>
        match links with
        | 0 => .error .tooManyLinks
        | links + 1 =>
          if target = "" then .error .missing
          else
            follow root links (if Path.isAbsolute target then [] else here)
              (split '/' target ++ rest)
termination_by (links, names.length)

/-- The file or folder that an absolute path leads to. -/
def find (root : Tree) (path : String) : Except Obstacle Tree := do
  let steps ← root.follow linkLimit [] (split '/' path)
  match root.at? steps with
  | some t => return t
  | none => .error .missing

/-- Whether an absolute path leads to a file or folder. -/
def holds (root : Tree) (path : String) : Bool :=
  (root.find path).isOk

/-- The file or folder that a path leads to, for an operation. -/
def findFor (root : Tree) (operation path : String) : Except FileError Tree :=
  (root.find path).mapError fun o => ⟨o, operation, some path⟩

/-- Whether a path leads to a file, and not to a folder. -/
def isFile (root : Tree) (path : String) : Except FileError Bool := do
  match ← root.findFor "stat" path with
  | .file _ => return true
  | _ => return false

/-- Whether a path leads to a folder. -/
def isFolder (root : Tree) (path : String) : Except FileError Bool := do
  match ← root.findFor "stat" path with
  | .folder _ => return true
  | _ => return false

/-- The bytes of the file that a path leads to. -/
def read (root : Tree) (path : String) : Except FileError (List UInt8) := do
  match ← root.findFor "open" path with
  | .file bytes => return bytes
  | _ => .error ⟨.isFolder, "read", none⟩

/-- The names in the folder that a path leads to. -/
def list (root : Tree) (path : String) : Except FileError (List String) := do
  match ← root.findFor "scandir" path with
  | .folder entries => return entries.map Prod.fst
  | _ => .error ⟨.notFolder, "scandir", some path⟩

/-- A file below a folder: the steps to it, and its bytes. -/
abbrev Leaf := List String × List UInt8

mutual

/-- The files of a tree; links are not followed. -/
def leaves : Tree → List Leaf
  | .file bytes => [([], bytes)]
  | .link _ => []
  | .folder entries => leavesOf entries

/-- The files of the entries of a folder. -/
def leavesOf : List (String × Tree) → List Leaf
  | [] => []
  | (name, t) :: rest => (leaves t).map (fun (steps, b) => (name :: steps, b)) ++ leavesOf rest

end

/-- What was put somewhere is found there. -/
theorem at?_put (t : Tree) (steps : List String) (new : Tree) :
    (t.put steps new).at? steps = some new := by
  induction steps generalizing t with
  | nil => rfl
  | cons name rest ih =>
      have lookup (x : Tree) (entries : List (String × Tree)) :
          (setEntry name x entries).lookup name = some x := by
        induction entries with
        | nil => simp [setEntry]
        | cons e es ih =>
            obtain ⟨n, old⟩ := e
            unfold setEntry
            split
            · next h => simp [h]
            · next h => simp [List.lookup_cons, beq_false_of_ne (Ne.symm h), ih]
      simp [put, at?, child?, lookup, ih]

end Tree

end LicenseAudit
