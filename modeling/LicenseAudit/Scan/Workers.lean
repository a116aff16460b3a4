import LicenseAudit.Pool
import LicenseAudit.Scan

/-!
# Scanning with several workers

The targets of a scan are the items of a pool, and what its workers share
is the validator.  The work on a file may take any time to read it; then it
consults the validator in one stretch, which no other work interrupts, and
knows what comes of the file.  The move that ends the work on a file stands
for that stretch.

Which worker moves when is left open, so a scan **may end** with every
report that some order of moves leads to.
-/

namespace LicenseAudit

/-- The work on one of several targets; it never fails. -/
def Sources.work (s : Sources) (targets : List String) (i : Nat) (v : Validator) :
    Except Empty Outcome × Validator :=
  let (outcome, v') := s.scanFile (targets.getD i "") v
  (.ok outcome, v')

/-- How many workers a project asks for. -/
def Project.workers (p : Project) : Nat :=
  Config.workers p.config.multiprocessing p.config.jobs p.processors

/-- The report on what a pool answers and the validator that it leaves. -/
def Scan.reportAt (p : Project) (s : Survey) (selection : Selection)
    (q : Pool Validator Empty Outcome) : Report :=
  match q.answer (selection.targets s).length with
  | .ok outcomes => reportOn p s selection outcomes q.shared
  | .error e => e.elim

/-- The scan of a project may end with a report: its workers may move so
that their pool comes to its end and this is the report on it. -/
def Project.MayReport (p : Project) (vcs : Except Failure Vcs) (selection : Selection)
    (r : Report) : Prop :=
  ∃ s, p.survey vcs = .ok s ∧
    let targets := selection.targets s
    let work := (Sources.of p s.files.manifests).work targets
    ∃ q, Pool.Reaches work targets.length (.start p.workers targets.length (.new p.catalog)) q ∧
      q.IsDone targets.length ∧ r = Scan.reportAt p s selection q

end LicenseAudit
