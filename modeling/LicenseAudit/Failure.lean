import LicenseAudit.Json

/-!
# Failures

What can go wrong, as far as it is reported: a failure has a kind, a
message and perhaps the failure that caused it.  Failures that users can
mend carry a title, a code and perhaps a hint.  Any value at all can be
reported as a failure as well.
-/

namespace LicenseAudit

/-- Which part of the work failed. -/
inductive FailureKind where
  | general
  | program
  | config
  | manifest
  | projectRoot
  | licenseDirectory
  | duplicateLicense
  | evidence
  | git
  | range
  | commandLine
  deriving DecidableEq, Repr

/-- The name under which a kind of failure is reported. -/
def FailureKind.name : FailureKind → String
  | .general => "Error"
  | .program => "LicenseLintError"
  | .config => "ConfigError"
  | .manifest => "ManifestError"
  | .projectRoot => "ProjectRootError"
  | .licenseDirectory => "LicenseDirectoryError"
  | .duplicateLicense => "DuplicateLicenseError"
  | .evidence => "EvidenceError"
  | .git => "GitError"
  | .range => "RangeError"
  | .commandLine => "CommanderError"

/-- What users are told to look at. -/
inductive Concern where
  | config
  | projectRoot
  | licenseDirectory
  | usage
  deriving DecidableEq, Repr

/-- The code of a concern. -/
def Concern.code : Concern → String
  | .config => "CONFIG_ERROR"
  | .projectRoot => "PROJECT_ROOT_ERROR"
  | .licenseDirectory => "LICENSE_DIRECTORY_ERROR"
  | .usage => "USAGE_ERROR"

/-- A failure. -/
inductive Failure where
  | error (kind : FailureKind) (message : String) (cause : Option Failure)
  | advice (code title message : String) (hint : Option String) (cause : Option Failure)
  | value (v : Json)
  deriving Inhabited

namespace Failure

/-- A failure of some kind without a cause. -/
def plain (kind : FailureKind) (message : String) : Failure :=
  .error kind message none

/-- A failure that users can mend. -/
def advise (concern : Concern) (title message : String) (hint : Option String)
    (cause : Option Failure) : Failure :=
  .advice concern.code title message hint cause

/-- Two files with the text of one license. -/
def duplicateLicense (id first second : String) : Failure :=
  .plain .duplicateLicense (id ++ " is the identifier of both " ++ first ++ " and " ++ second)

/-- The name under which a failure is reported. -/
def name : Failure → String
  | .error kind _ _ => kind.name
  | .advice .. => "UserFacingError"
  | .value _ => ""

/-- Whether a failure is one of the program's own. -/
def isOwn : Failure → Bool
  | .error kind _ _ => !(kind == .general || kind == .range || kind == .commandLine)
  | .advice .. => true
  | .value _ => false

mutual

/-- A value in a sentence: a list as its items with commas between them,
in which an absent item leaves nothing. -/
def valueText : Json → String
  | .null => "null"
  | .bool b => if b then "true" else "false"
  | .number n => n.text
  | .text s => s
  | .list items => ",".intercalate (itemTexts items)
  | .object _ => "[object Object]"

/-- The items of a list in a sentence. -/
def itemTexts : List Json → List String
  | [] => []
  | .null :: rest => "" :: itemTexts rest
  | item :: rest => valueText item :: itemTexts rest

end

/-- The message of a failure. -/
def message : Failure → String
  | .error _ m _ => m
  | .advice _ _ m _ _ => m
  | .value v => valueText v

/-- What caused a failure. -/
def cause? : Failure → Option Failure
  | .error _ _ cause => known cause
  | .advice _ _ _ _ cause => known cause
  | .value v => known ((v.field? "cause").map .value)
where
  /-- An absent value is no cause. -/
  known : Option Failure → Option Failure
    | some (.value .null) => none
    | cause => cause

end Failure

end LicenseAudit
