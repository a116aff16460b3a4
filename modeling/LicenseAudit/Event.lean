import LicenseAudit.Calendar
import LicenseAudit.Failure

/-!
# Events

What a scan reports while it goes on.  An event has a type, a level, and
perhaps a message and a payload.  **Stamping** it gives it a time and the
identifier of the run, without which no event is recorded.
-/

namespace LicenseAudit

/-- How important an event is. -/
inductive Level where
  | debug
  | info
  | warn
  | error
  deriving DecidableEq, Repr

namespace Level

/-- The name of a level. -/
def name : Level → String
  | .debug => "debug"
  | .info => "info"
  | .warn => "warn"
  | .error => "error"

/-- The level of a name. -/
def ofName? (s : String) : Option Level :=
  [Level.debug, .info, .warn, .error].find? fun l => l.name = s

/-- The place of a level among the levels. -/
def index : Level → Nat
  | .debug => 0
  | .info => 1
  | .warn => 2
  | .error => 3

/-- The word for a level in front of a message. -/
def label : Level → String
  | .warn => "warning"
  | l => l.name

end Level

/-- When an event took place: a text as it is given, or milliseconds since
1970. -/
inductive Moment where
  | text (s : String)
  | instant (milliseconds : Int)
  deriving DecidableEq, Repr

/-- An event. -/
structure Event where
  kind : String
  level : Level := .info
  message : Option String := none
  payload : List (String × Json) := []
  runId : Option String := none
  moment : Option Moment := none
  deriving Repr

namespace Event

/-- A warning. -/
def warning (kind message : String) (payload : List (String × Json)) : Event :=
  { kind, level := .warn, message := some message, payload }

/-- An event for those who look for a fault. -/
def debug (kind message : String) (payload : List (String × Json)) : Event :=
  { kind, level := .debug, message := some message, payload }

/-- The text of a moment; what lies too far from 1970 has none. -/
def momentText : Moment → Except Failure String
  | .text s => .ok s
  | .instant t =>
    if t.natAbs ≤ Calendar.lastInstant.natAbs then .ok (Calendar.text t ++ "Z")
    else .error (.plain .range "Invalid time value")

/-- The identifier of the run of an event, its own or else a default. -/
def runIdOf (e : Event) (default : Option String) : Except Failure String :=
  match (e.runId <|> default).getD "" with
  | "" => .error (.plain .general "run_id is required for log events")
  | id => .ok id

/-- The fields of an event with its time and run; `now` is the time of
events that have none.  An empty message and an empty payload are left
out. -/
def stamped (e : Event) (runId : Option String) (now : Moment) :
    Except Failure (List (String × Json)) := do
  let id ← e.runIdOf runId
  let time ← momentText (e.moment.getD now)
  let message := (e.message.filter (!·.isEmpty)).toList.map fun m => ("message", Json.text m)
  let payload := if e.payload.isEmpty then [] else [("payload", Json.object e.payload)]
  return [("ts", .text time), ("type", .text e.kind), ("level", .text e.level.name),
    ("run_id", .text id)] ++ message ++ payload

/-- The line about an event on a console, which shows the levels from
warnings on, or all of them when it is `detailed`. -/
def consoleLine? (detailed : Bool) (e : Event) : Option String :=
  let least := if detailed then Level.debug else .warn
  if e.level.index < least.index then none
  else some (e.level.label ++ ": " ++ e.message.getD e.kind)

end Event

end LicenseAudit
