import LicenseAudit.Proofs.Pool
import LicenseAudit.Proofs.Scan.Outcome
import LicenseAudit.Proofs.Scan.Survey
import LicenseAudit.Scan.Workers

/-!
# The report does not depend on the workers

The work on the targets of a scan is steady, because what comes of a file
does not depend on what the validator has validated before.  So whoever
moves when, the pool of a scan answers what comes of each target, and the
report on these answers is the only one that a scan may end with, whatever
its workers (`mayReport_iff_of_survey`).
-/

namespace LicenseAudit

/-- The work on the targets of a scan is steady. -/
theorem Sources.steady_work (s : Sources) (targets : List String) :
    Pool.Steady (s.work targets) targets.length (·.Serves s.project.catalog)
      fun i => s.outcomeAt (targets.getD i "") where
  returns i _ _ hv := congrArg Except.ok (scanFile_eq hv (targets.getD i "")).1
  keeps i _ _ hv := (scanFile_eq hv (targets.getD i "")).2

namespace Scan

variable {p : Project} {s : Survey} {selection : Selection}

/-- At its end the pool of a scan has this report. -/
theorem reportAt_of_reaches {workers : Int} {q : Pool Validator Empty Outcome}
    (hq : Pool.Reaches ((Sources.of p s.files.manifests).work (selection.targets s))
      (selection.targets s).length
      (.start workers (selection.targets s).length (.new p.catalog)) q)
    (hdone : q.IsDone (selection.targets s).length) :
    reportAt p s selection q = reportOf p s selection := by
  obtain ⟨hanswer, hserves⟩ :=
    Pool.answer_of_reaches ((Sources.of p s.files.manifests).steady_work (selection.targets s))
      (Validator.serves_new p.catalog) hq hdone
  have houtcomes : (List.range (selection.targets s).length).map
      (fun i => (Sources.of p s.files.manifests).outcomeAt ((selection.targets s).getD i "")) =
      outcomes p s selection := by
    refine List.ext_getElem (by simp [outcomes]) fun i hi _ => ?_
    have hlength : i < (selection.targets s).length := by simpa using hi
    simp [outcomes, hlength]
  rw [reportAt, hanswer, houtcomes]
  exact reportOn_outcomes hserves

end Scan

namespace Project

variable {p : Project} {vcs : Except Failure Vcs} {selection : Selection} {s : Survey}

/-- A scan of a surveyed project may end with the report on its targets,
and with no other. -/
theorem mayReport_iff_of_survey (hs : p.survey vcs = .ok s) {r : Report} :
    p.MayReport vcs selection r ↔ r = Scan.reportOf p s selection := by
  constructor
  · rintro ⟨s', hs', q, hq, hdone, hr⟩
    obtain rfl : s = s' := Except.ok.inj (hs.symm.trans hs')
    rw [hr, Scan.reportAt_of_reaches hq hdone]
  · rintro rfl
    obtain ⟨q, hq, hdone⟩ := Pool.exists_reaches_isDone
      ((Sources.of p s.files.manifests).work (selection.targets s)) (selection.targets s).length
      (.start p.workers (selection.targets s).length (.new p.catalog))
    exact ⟨s, hs, q, hq, hdone, (Scan.reportAt_of_reaches hq hdone).symm⟩

/-- The project scanned with other settings for the workers, on a machine
with other processors. -/
def staffed (p : Project) (multiprocessing : Bool) (jobs : Option Nat) (processors : Nat) :
    Project :=
  { p with
    config := { p.config with multiprocessing, jobs }
    processors }

/-- **Workers make no difference**: with whatever settings for the workers,
and in whatever order they move, a scan of a project ends with one report,
the report of the scan with one worker and of the scan that goes from one
target to the next. -/
theorem report_independent_of_workers (hs : p.survey vcs = .ok s) :
    ∃ r, (p.scan vcs selection).map Scan.report = .ok r ∧
      (p.staffed false none 1).MayReport vcs selection r ∧
      ∀ multiprocessing jobs processors r',
        (p.staffed multiprocessing jobs processors).MayReport vcs selection r' ↔ r' = r := by
  have hstaffed (multiprocessing : Bool) (jobs : Option Nat) (processors : Nat) (r' : Report) :
      (p.staffed multiprocessing jobs processors).MayReport vcs selection r' ↔
        r' = Scan.reportOf p s selection :=
    mayReport_iff_of_survey (p := p.staffed multiprocessing jobs processors) hs
  exact ⟨Scan.reportOf p s selection, report_scan hs selection, (hstaffed _ _ _ _).2 rfl, hstaffed⟩

/-- A project with a file and a manifest has one report. -/
theorem report_independent_of_workers_plain :
    let files : List (String × Tree) := [("REUSE.toml", .file [10]), ("a.c", .file [120, 10])]
    let p := plain files
    p.survey (.ok .none) = .ok (plainSurvey files) ∧
      ∃ r, (p.scan (.ok .none) .covered).map Scan.report = .ok r ∧
        (p.staffed false none 1).MayReport (.ok .none) .covered r ∧
        ∀ multiprocessing jobs processors r',
          (p.staffed multiprocessing jobs processors).MayReport (.ok .none) .covered r' ↔ r' = r :=
  ⟨survey_plain _ rfl, report_independent_of_workers (survey_plain _ rfl)⟩

end Project

end LicenseAudit
