import LicenseAudit.Evidence
import LicenseAudit.Proofs.Text.Order
import Mathlib.Data.List.Nodup

/-!
# Evidence as lists of lines and sources

What an operation on fields does is said kind by kind, through `lines`.
Sources have a strict order of their own, by path and then by kind, and
`isListing_sources` says that the sources of a file are listed in it.
-/

namespace LicenseAudit

open Text

theorem Field.mem_all (kind : Field) : kind ∈ Field.all := by
  cases kind <;> decide

namespace Fields

/-- Fields are determined by their lines. -/
theorem ext_lines {f g : Fields} (h : ∀ kind, f.lines kind = g.lines kind) : f = g := by
  cases f
  cases g
  simp only [mk.injEq]
  exact ⟨h .copyrights, h .licenses, h .contributors⟩

@[simp] theorem lines_sorted (f : Fields) (kind : Field) :
    f.sorted.lines kind = sortedUnique (f.lines kind) := by
  cases kind <;> rfl

@[simp] theorem has_sorted (f : Fields) (kind : Field) : f.sorted.has kind = f.has kind := by
  rw [Bool.eq_iff_iff]
  simp [has]

@[simp] theorem any_sorted (f : Fields) : f.sorted.any = f.any := by
  rw [Bool.eq_iff_iff, any_iff_exists_has, any_iff_exists_has]
  simp

theorem lines_only (f : Fields) (kind other : Field) :
    (f.only kind).lines other = if other = kind then f.lines kind else [] := by
  cases kind <;> cases other <;> rfl

theorem any_only (f : Fields) (kind : Field) : (f.only kind).any = f.has kind := by
  rw [Bool.eq_iff_iff, any_iff_exists_has]
  constructor
  · rintro ⟨other, h⟩
    rw [has, lines_only] at h
    split at h
    · exact h
    · simp at h
  · intro h
    exact ⟨kind, by simpa [has, lines_only] using h⟩

@[simp] theorem mem_lines_union {x : String} {kind : Field} {fs : List Fields} :
    x ∈ (union fs).lines kind ↔ ∃ f ∈ fs, x ∈ f.lines kind := by
  cases kind <;> simp [union, lines]

end Fields

/-- Evidence has the lines it is made of, in their order. -/
theorem Evidence.of_eq_ok {origin : Origin} {path : String} {fields : Fields}
    (h : fields.any = true) :
    Evidence.of origin path fields = .ok ⟨origin, path, fields.sorted, by simpa using h⟩ := by
  simp [Evidence.of, h]

namespace Source

/-- A source comes strictly before another: by path, and then by kind. -/
def Before (a b : Source) : Prop :=
  Text.Before a.path b.path ∨ a.path = b.path ∧ a.kind.index < b.kind.index

theorem Before.asymm {a b : Source} (hab : Before a b) : ¬ Before b a := by
  rintro (hba | ⟨hpath, hba⟩)
  · rcases hab with hab | ⟨hpath, -⟩
    · exact hab.asymm hba
    · rw [hpath] at hba
      exact hba.asymm hba
  · rcases hab with hab | ⟨-, hab⟩
    · rw [hpath] at hab
      exact hab.asymm hab
    · omega

theorem Before.trans {a b c : Source} (hab : Before a b) (hbc : Before b c) : Before a c := by
  rcases hab with hab | ⟨hab, hi⟩ <;> rcases hbc with hbc | ⟨hbc, hj⟩
  · exact Or.inl (hab.trans hbc)
  · exact Or.inl (hbc ▸ hab)
  · exact Or.inl (hab ▸ hbc)
  · exact Or.inr ⟨hab.trans hbc, Nat.lt_trans hi hj⟩

/-- No two kinds have the same place. -/
theorem kindIndex_injective {a b : SourceKind}
    (h : a.index = b.index) : a = b := by
  cases a <;> cases b <;> first | rfl | cases h

/-- A source that is listed before another comes before it or is the
same. -/
theorem isAtMost_iff {a b : Source} : isAtMost a b = true ↔ Before a b ∨ a = b := by
  obtain ⟨akind, apath⟩ := a
  obtain ⟨bkind, bpath⟩ := b
  by_cases hpath : apath = bpath
  · subst hpath
    have hirrefl : ¬ Text.Before apath apath := fun h => h.asymm h
    simp only [isAtMost, if_true, decide_eq_true_eq, Before, hirrefl, true_and, false_or, mk.injEq,
      and_true, Nat.le_iff_lt_or_eq]
    exact or_congr_right ⟨kindIndex_injective, congrArg _⟩
  · simp [isAtMost, Before, hpath, Text.isAtMost_iff]

theorem isAtMost_trans {a b c : Source} (hab : isAtMost a b = true)
    (hbc : isAtMost b c = true) : isAtMost a c = true :=
  trans_of_iff_before (fun _ _ => isAtMost_iff) (fun _ _ _ => Before.trans) hab hbc

theorem isAtMost_total (a b : Source) : (isAtMost a b || isAtMost b a) = true := by
  by_cases hpath : a.path = b.path
  · simpa [isAtMost, hpath] using Nat.le_total a.kind.index b.kind.index
  · simpa [isAtMost, hpath, Ne.symm hpath] using Text.isAtMost_total a.path b.path

end Source

theorem nodup_eraseDups {α : Type} [DecidableEq α] (l : List α) : l.eraseDups.Nodup := by
  match l with
  | [] => exact .nil
  | x :: xs =>
      rw [List.eraseDups_cons]
      refine List.nodup_cons.2 ⟨fun h => ?_, nodup_eraseDups _⟩
      simpa using List.mem_eraseDups.1 h
termination_by l.length
decreasing_by
  have := List.length_filter_le (fun y => !y == x) xs
  simp only [List.length_cons]
  omega

/-- The sources of a file are listed in their order, each once. -/
theorem isListing_sources (sources : List Source) :
    IsListing Source.Before (· ∈ sources) (sources.eraseDups.mergeSort Source.isAtMost) := by
  have hlisting : IsListing Source.Before (· ∈ sources.eraseDups)
      (sources.eraseDups.mergeSort Source.isAtMost) :=
    isListing_mergeSort (fun a b c => @Source.isAtMost_trans a b c) Source.isAtMost_total
      (nodup_eraseDups sources) fun _ _ _ _ hle hne => (Source.isAtMost_iff.1 hle).resolve_right hne
  exact hlisting.congr fun s => List.mem_eraseDups

namespace Entry

/-- The evidence that an entry with a line is. -/
def toEvidence (e : Entry) (h : e.fields.any = true) : Evidence :=
  ⟨.entry e.depth e.strategy, e.manifest, e.fields.sorted, by simpa using h⟩

theorem evidence_eq_ok {e : Entry} (h : e.fields.any = true) :
    e.evidence = .ok (e.toEvidence h) :=
  Evidence.of_eq_ok h

/-- Entries that all have a line are all evidence. -/
theorem mapM_evidence (entries : List Entry) (h : ∀ e ∈ entries, e.fields.any = true) :
    entries.mapM evidence = .ok (entries.pmap toEvidence h) := by
  induction entries with
  | nil => rfl
  | cons e es ih =>
      rw [List.mapM_cons, evidence_eq_ok (h e (by simp)), ih fun a ha => h a (by simp [ha])]
      rfl

end Entry

end LicenseAudit
