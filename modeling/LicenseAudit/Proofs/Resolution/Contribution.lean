import LicenseAudit.Proofs.Notice.Permutation
import LicenseAudit.Proofs.Resolution

/-!
# The order of contributions

Resolution puts the lines of the evidence that contributes together in the
order in which it contributes.  Lines that are not merged are sorted
afterwards, so no order shows in them; merged lines are alike in any order,
and the same when no holder's years are left open with two words:
`merged_in_any_order`.
-/

namespace LicenseAudit.Resolution

open Text Notice

/-- The copyright lines of evidence, each once. -/
def copyrightsOf (evidence : List Evidence) : List String :=
  (Fields.union (evidence.map Evidence.fields)).copyrights

/-- The evidence that resolution puts together: that of the shallowest entry
which overrides, or else all that contributes. -/
def contributors (path : String) (records : List Evidence) (entries : List Entry) :
    List Evidence :=
  match (given path entries .override).head? with
  | some whole => [whole]
  | none => contributing path records entries

/-- Resolution gives what the contributors amount to. -/
theorem exists_resolve_eq_combine (path : String) (records : List Evidence) (entries : List Entry)
    (options : Options) :
    ∃ unparsable, resolve path records entries options =
      .ok (combine path { options with unparsable } (contributors path records entries)) := by
  rw [resolve_eq_ok, contributors]
  cases (given path entries .override).head? with
  | some whole => exact ⟨[], rfl⟩
  | none => exact ⟨options.unparsable, rfl⟩

/-- The merged copyright lines of evidence. -/
theorem copyrights_combine {options : Options} (hmerge : options.mergeCopyrights = true)
    (path : String) (evidence : List Evidence) :
    (combine path options evidence).fields.copyrights = mergeLines (copyrightsOf evidence) := by
  have hsorted := sortedUnique_eq_self (isListing_mergeLines (copyrightsOf evidence)).ascending
  rw [copyrightsOf] at hsorted ⊢
  simp only [combine, hmerge, if_true, FileInfo.of, Fields.sorted, hsorted]

theorem perm_copyrightsOf {evidence others : List Evidence} (h : evidence.Perm others) :
    (copyrightsOf evidence).Perm (copyrightsOf others) := by
  refine (List.perm_ext_iff_of_nodup (nodup_eraseDups _) (nodup_eraseDups _)).2 fun line => ?_
  simp only [List.mem_eraseDups]
  exact ((h.map Evidence.fields).flatMap_right Fields.copyrights).mem_iff

/-- **Merged lines in any order**: lines in another order are merged to lines
that are alike, and to the same when the years of every holder are left open
with the same word, as they are when no two ranges of one holder are left open
with different words.  Evidence that contributes in another order has copyright
lines like those that resolution gives, and the same in that case too. -/
theorem merged_in_any_order :
    (∀ lines lines' : List String, lines.Perm lines' →
      AreAlike (mergeLines lines) (mergeLines lines') ∧
        ((∀ holder, openWord? lines holder = openWord? lines' holder) →
          mergeLines lines = mergeLines lines') ∧
        (AreUnanimous lines → mergeLines lines = mergeLines lines')) ∧
    ∀ (path : String) (records : List Evidence) (entries : List Entry) (options : Options),
      options.mergeCopyrights = true →
      ∃ info, resolve path records entries options = .ok info ∧
        ∀ others, others.Perm (contributors path records entries) →
          AreAlike (combine path options others).fields.copyrights info.fields.copyrights ∧
            (AreUnanimous (copyrightsOf (contributors path records entries)) →
              (combine path options others).fields.copyrights = info.fields.copyrights) := by
  constructor
  · intro lines lines' h
    refine ⟨areAlike_mergeLines h, mergeLines_eq_of_perm h, fun hsame => ?_⟩
    exact mergeLines_eq_of_perm h (openWord?_eq_of_perm h hsame)
  · intro path records entries options hmerge
    obtain ⟨unparsable, hresolve⟩ := exists_resolve_eq_combine path records entries options
    refine ⟨_, hresolve, fun others hothers => ?_⟩
    have hlines := perm_copyrightsOf hothers
    have hinfo : (combine path { options with unparsable } (contributors path records entries)
        ).fields.copyrights = mergeLines (copyrightsOf (contributors path records entries)) :=
      copyrights_combine hmerge path _
    rw [copyrights_combine hmerge, hinfo]
    refine ⟨areAlike_mergeLines hlines, fun hsame => ?_⟩
    apply mergeLines_eq_of_perm hlines
    intro holder
    exact (openWord?_eq_of_perm hlines.symm hsame holder).symm

/-- Lines of two holders, one of them with an open and a closed range. -/
def unanimous : List String :=
  ["2017-Present Jane Doe", "2018-now John Doe", "2016-2019 Jane Doe"]

theorem merged_in_any_order_unanimous :
    AreUnanimous unanimous ∧ mergeLines unanimous.reverse = mergeLines unanimous ∧
      mergeLines unanimous = ["2016-Present Jane Doe", "2018-now John Doe"] := by
  have hsame : AreUnanimous unanimous := by decide +kernel
  have hperm : unanimous.Perm unanimous.reverse := (List.reverse_perm unanimous).symm
  have hmerged := merged_in_any_order.1 unanimous unanimous.reverse hperm
  exact ⟨hsame, (hmerged.2.2 hsame).symm, by decide +kernel⟩

/-- Of two words for the end of a holder's years the first is kept. -/
theorem mergeLines_discordant :
    ["2018-now Jane Doe", "2017-Present Jane Doe"].Perm
        ["2017-Present Jane Doe", "2018-now Jane Doe"] ∧
      mergeLines ["2018-now Jane Doe", "2017-Present Jane Doe"] = ["2017-now Jane Doe"] ∧
      mergeLines ["2017-Present Jane Doe", "2018-now Jane Doe"] ≠
        mergeLines ["2018-now Jane Doe", "2017-Present Jane Doe"] := by
  decide +kernel

end LicenseAudit.Resolution
