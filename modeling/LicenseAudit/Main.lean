import LicenseAudit.CommandLine.Session

/-!
# The program

What a run needs to know of the machine is read first, then the run is
computed, and at last its output, its errors and its log are written.  No
version control is asked.
-/

namespace LicenseAudit.Main

open CommandLine

/-- The folders whose content is never looked at. -/
def closedFolders : List String :=
  [".git", ".hg", ".sl"]

/-- What lies at an absolute path; a link is followed at once, and what
cannot be read is left out. -/
partial def treeAt? (path : String) : IO (Option Tree) := do
  try
    let place := (← IO.currentDir) / path
    match (← place.symlinkMetadata).type with
    | .dir =>
      let mut found : List (String × Tree) := []
      for entry in ← place.readDir do
        let inner ←
          if closedFolders.contains entry.fileName then pure (some Tree.empty)
          else treeAt? (path ++ "/" ++ entry.fileName)
        if let some t := inner then
          found := (entry.fileName, t) :: found
      return some (.folder found)
    | .symlink => return some (.link (← IO.FS.realPath place).toString)
    | _ => return some (.file (← IO.FS.readBinFile place).toList)
  catch _ => return none

/-- The files that a request may need, as far as they exist. -/
def treeFor (directory : String) (s : Settings) : Request → IO Tree
  | .lint _ => gathered
  | .lintFiles _ _ => gathered
  | _ => return Tree.empty
where
  /-- The files of the project, the configuration and the log. -/
  gathered : IO Tree := do
    let named := (s.config.toList ++ s.logFile.toList).map (Path.resolve directory)
    let mut tree := Tree.empty
    for path in named ++ [Path.resolve directory (s.root.getD ".")] do
      if let some t := ← treeAt? path then
        tree := tree.put (Path.steps true path) t
    return tree

/-- The content of a file that describes the machine; nothing without such
a file. -/
def described (path : String) : IO String := do
  try
    let bytes ← IO.FS.readBinFile ((← IO.currentDir) / path)
    return String.ofList (Text.Utf8.decode bytes.toList)
  catch _ => return ""

/-- The time in milliseconds since 1970, as the files of a process that has
just begun tell it. -/
def now : IO Int := do
  try
    let time := (← ((← IO.currentDir) / "/proc/self/environ").metadata).modified
    return time.sec * 1000 + (time.nsec.toNat / 1000000 : Nat)
  catch _ => return 0

/-- What the program sees of the machine. -/
def machineFor (directory : String) (s : Settings) (r : Request) : IO Machine := do
  let time ← now
  let processors := (Text.split '\n' (← described "/proc/cpuinfo")).filter
    (Text.startsWith · "processor")
  return {
    tree := ← treeFor directory s r
    environment := .ofBlock (← described "/proc/self/environ")
    directory
    processors := max 1 processors.length
    isTerminal := ← (← IO.getStderr).isTty
    runId := Calendar.digits time
    now := .instant time }

/-- Adds what is new in the log of a run to its file. -/
def save (log : Log) : IO Unit := do
  let here ← IO.currentDir
  IO.FS.createDirAll (here / Path.parent log.path)
  let before ← described log.path
  let added := (Text.dropStart? before.toList log.text.toList).getD log.text.toList
  let file ← IO.FS.Handle.mk (here / log.path) .append
  file.putStr (String.ofList added)

end LicenseAudit.Main

open LicenseAudit LicenseAudit.Main LicenseAudit.CommandLine in
/-- Runs the program. -/
def main (arguments : List String) : IO UInt32 := do
  let directory := (← IO.currentDir).toString
  let sorted := Arguments.of programForm.switches arguments
  let machine ← machineFor directory (.of sorted) (.of sorted)
  let answer := run machine arguments
  if let some log := answer.log then save log
  (← IO.getStdout).putStr answer.output
  (← IO.getStderr).putStr answer.errors
  return answer.exit.toUInt32
