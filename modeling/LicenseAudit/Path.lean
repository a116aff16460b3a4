import LicenseAudit.Text.Search

/-!
# Paths

A path is a text of **names** between slashes.  Following it from a
starting point is a sequence of steps: an empty name and a dot stay, two
dots go up, and any other name goes down.  `steps` is what is left of a
path after every step up has taken back the step down before it; an
absolute path never leads above its root, so its steps are names of
directories and of what they hold.

`resolve` gives the place that a path names as seen from a directory, and
`relative` the path from one place to another, both by their steps.
-/

namespace LicenseAudit.Path

open Text

/-- Whether a path starts at the root. -/
def isAbsolute (p : String) : Bool :=
  p.toList.head? == some '/'

/-- One more step after the steps `back`, the last of them first.  At its
start a path that is not `rooted` may lead up. -/
def advance (rooted : Bool) (back : List String) (name : String) : List String :=
  if name = "" ∨ name = "." then back
  else if name = ".." then
    match back with
    | [] => if rooted then [] else [".."]
    | top :: rest => if top = ".." then ".." :: top :: rest else rest
  else name :: back

/-- The steps that are left of a path. -/
def steps (rooted : Bool) (p : String) : List String :=
  ((split '/' p).foldl (advance rooted) []).reverse

/-- The text of steps, with slashes between them. -/
def joined (names : List String) : String :=
  "/".intercalate names

/-- The absolute path of some steps from the root. -/
def ofSteps (names : List String) : String :=
  "/" ++ joined names

/-- The shortest path with the same steps; a slash at the end stays. -/
def normalize (p : String) : String :=
  if p = "" then "."
  else
    let rooted := isAbsolute p
    let names := steps rooted p
    let start := if rooted then "/" else if names.isEmpty then "." else ""
    let ending := if endsWith p "/" && !(rooted && names.isEmpty) then "/" else ""
    start ++ joined names ++ ending

/-- The shortest path that continues `base` with `p`. -/
def join (base p : String) : String :=
  normalize (if p = "" then base else base ++ "/" ++ p)

/-- The steps from the root to the place that `p` names as seen from the
directory `base`. -/
def stepsFrom (base p : String) : List String :=
  steps true (if isAbsolute p then p else base ++ "/" ++ p)

/-- The absolute path of the place that `p` names as seen from `base`. -/
def resolve (base p : String) : String :=
  ofSteps (stepsFrom base p)

/-- The steps from one place to another: up to where they part, and down
again. -/
def between : List String → List String → List String
  | a :: as, b :: bs =>
    if a = b then between as bs else (a :: as).map (fun _ => "..") ++ (b :: bs)
  | as, bs => as.map (fun _ => "..") ++ bs

/-- The path from one absolute path to another. -/
def relative (here there : String) : String :=
  joined (between (steps true here) (steps true there))

/-- The part of a path before its last name: `.` when there is none, and
the root when it is all there is.  Of several slashes in a row one
separates the parts. -/
def parent (p : String) : String :=
  match p.toList with
  | [] => "."
  | c :: cs =>
    match (cs.reverse.dropWhile (· == '/')).dropWhile (· != '/') with
    | [] => if c = '/' then "/" else "."
    | _ :: back => if c = '/' ∧ back = [] then "//" else String.ofList (c :: back.reverse)

/-- The last name of a path. -/
def name (p : String) : String :=
  let back := p.toList.reverse.dropWhile (· == '/')
  String.ofList (back.takeWhile (· != '/')).reverse

/-- The extension of a name: from its last dot on, unless that is its
first character or the name goes up. -/
def extensionOf (n : List Char) : List Char :=
  let back := n.reverse
  match back.dropWhile (· != '.') with
  | [] => []
  | _ :: stem =>
    if stem = [] ∨ n = ['.', '.'] then [] else '.' :: (back.takeWhile (· != '.')).reverse

/-- A path cut into a stem and the extension of its last name. -/
def cutExtension (p : String) : String × String :=
  let extension := extensionOf (name p).toList
  (String.ofList (p.toList.take (p.length - extension.length)), String.ofList extension)

/-- How many names a path has, empty ones included. -/
def depth (p : String) : Nat :=
  (split '/' p).length

/-- What a path says below a directory, when it lies below it. -/
def below? (directory p : String) : Option String :=
  (dropStart? (directory ++ "/").toList p.toList).map String.ofList

example : normalize "./a//b/../c/" = "a/c/" ∧ normalize "" = "." ∧ normalize "/.." = "/" := by
  decide +kernel

example : resolve "/p/q" "../r" = "/p/r" ∧ relative "/p/q" "/p/r/s" = "../r/s" := by
  decide +kernel

example : parent "a//b" = "a/" ∧ parent "b" = "." ∧ parent "/b" = "/" := by
  decide +kernel

example : cutExtension "MIT.txt" = ("MIT", ".txt") ∧ cutExtension ".x" = (".x", "") := by
  decide +kernel

end LicenseAudit.Path
