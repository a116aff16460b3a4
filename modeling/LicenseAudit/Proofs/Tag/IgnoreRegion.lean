import LicenseAudit.Proofs.Text.Order
import LicenseAudit.Proofs.Text.Search
import LicenseAudit.Tag

/-!
# What an ignore region hides

The text inside an ignore region has no influence on what is looked at,
whatever stands before and after the region: `outside_region` says that a
text with a region in it is looked at as what comes before the region and
what comes after it.

There is one exception.  A region that opens on the first line takes the
rest of the line on which it is closed, and with it the start marker of a
region that opens on that line.  `EndsOnClosingLine` describes the texts
that lead into this situation, and `region_hidden_iff` says that exactly
after these the text inside a region is not hidden.
-/

namespace LicenseAudit

open Text

/-- The value of a license tag is a license of the extraction or is reported
as no expression. -/
theorem Extraction.mem_of_license (parsed : String → Bool) {value : String}
    {fs : List Tag.Finding} (h : .license value ∈ fs) :
    value ∈ (ofFindings parsed fs).tags.licenses ∨ value ∈ (ofFindings parsed fs).unparsable := by
  have hvalue : value ∈ fs.filterMap Tag.Finding.license? := List.mem_filterMap.2 ⟨_, h, rfl⟩
  simp only [ofFindings, Fields.sorted, mem_sortedUnique, List.mem_filter, hvalue, true_and]
  cases parsed value <;> simp

namespace Tag

theorem ignoreStart_standsApart : StandsApart 'R' ignoreStart :=
  ⟨"EUSE-IgnoreStart".toList, rfl, by decide⟩

theorem ignoreEnd_standsApart : StandsApart 'R' ignoreEnd :=
  ⟨"EUSE-IgnoreEnd".toList, rfl, by decide⟩

/-- No end marker begins in a start marker. -/
theorem cut?_ignoreEnd_ignoreStart_append (b : List Char) :
    cut? ignoreEnd (ignoreStart ++ b) =
      (cut? ignoreEnd b).map fun (before, rest) => (ignoreStart ++ before, rest) := by
  have hsplit : ignoreStart ++ b = 'R' :: ("EUSE-IgnoreStart".toList ++ b) := rfl
  have hstart : dropStart? ignoreEnd ('R' :: ("EUSE-IgnoreStart".toList ++ b)) = none := rfl
  rw [hsplit, cut?, hstart, cut?_append_of_not_mem ignoreEnd_standsApart (by decide),
    Option.map_map]
  rfl

/-- A text with an ignore region in it: `inside` is the text between the
markers. -/
def region (before inside after : List Char) : List Char :=
  before ++ (ignoreStart ++ (inside ++ (ignoreEnd ++ after)))

variable {p c s : List Char}

/-- A region is closed by the first end marker after its start. -/
theorem cut?_ignoreEnd_inside (hc : occurs ignoreEnd c = false) (s : List Char) :
    cut? ignoreEnd (c ++ (ignoreEnd ++ s)) = some (c, s) :=
  cut?_append_self ignoreEnd_standsApart (occurs_eq_false_iff.1 hc) s

/-- A region that was opened before is closed by the end marker of a region
inside it. -/
theorem cut?_ignoreEnd_region (hp : cut? ignoreEnd p = none) (hc : occurs ignoreEnd c = false)
    (s : List Char) :
    cut? ignoreEnd (region p c s) = some (p ++ (ignoreStart ++ c), s) := by
  have happend := cut?_append_of_none ignoreEnd_standsApart hp
    ("EUSE-IgnoreStart".toList ++ (c ++ (ignoreEnd ++ s)))
  have hstart : 'R' :: ("EUSE-IgnoreStart".toList ++ (c ++ (ignoreEnd ++ s))) =
      ignoreStart ++ (c ++ (ignoreEnd ++ s)) := rfl
  rw [hstart, cut?_ignoreEnd_ignoreStart_append, cut?_ignoreEnd_inside hc] at happend
  exact happend

/-- The region is the first one when none is opened before it. -/
theorem cut?_ignoreStart_region (hp : cut? ignoreStart p = none) (c s : List Char) :
    cut? ignoreStart (region p c s) = some (p, c ++ (ignoreEnd ++ s)) :=
  cut?_append_self ignoreStart_standsApart hp _

theorem outside_of_none {cs : List Char} (h : cut? ignoreStart cs = none) : outside cs = cs := by
  rw [outside]
  split
  · rfl
  · next hsome => rw [h] at hsome; cases hsome

/-- A region that is never closed runs to the end. -/
theorem outside_of_open {cs before rest : List Char}
    (hstart : cut? ignoreStart cs = some (before, rest)) (hend : cut? ignoreEnd rest = none) :
    outside cs = dropLeader before := by
  rw [outside]
  split
  · next hnone => rw [hstart] at hnone; cases hnone
  · next b r hsome =>
      rw [hstart] at hsome
      cases hsome
      split
      · simp
      · next hsome => rw [hend] at hsome; cases hsome

/-- A region that is closed is left out. -/
theorem outside_of_closed {cs before rest inside after : List Char}
    (hstart : cut? ignoreStart cs = some (before, rest))
    (hend : cut? ignoreEnd rest = some (inside, after)) :
    outside cs = dropLeader before ++ outside after := by
  rw [outside]
  split
  · next hnone => rw [hstart] at hnone; cases hnone
  · next b r hsome =>
      rw [hstart] at hsome
      cases hsome
      split
      · next hnone => rw [hend] at hnone; cases hnone
      · next i a hsome =>
          rw [hend] at hsome
          cases hsome
          rfl

/-- **A region splits a text**: what is outside is what is outside before
the region, as if it were never closed, and what is outside after it. -/
theorem outside_region (hc : occurs ignoreEnd c = false) (p s : List Char) :
    outside (region p c s) = outside (p ++ ignoreStart) ++ outside s := by
  -- The first region that `p` opens is cut off, and `p` is shorter by it.
  induction hn : p.length using Nat.strongRecOn generalizing p with
  | ind n ih =>
      subst hn
      cases hstart : cut? ignoreStart p with
      | none =>
          have hopen : cut? ignoreStart (p ++ ignoreStart) = some (p, []) := by
            simpa using cut?_append_self ignoreStart_standsApart hstart []
          rw [outside_of_closed (cut?_ignoreStart_region hstart c s) (cut?_ignoreEnd_inside hc s),
            outside_of_open hopen rfl]
      | some parts =>
          obtain ⟨before, rest⟩ := parts
          have hfirst := cut?_append_of_some hstart (ignoreStart ++ (c ++ (ignoreEnd ++ s)))
          have hfirst' := cut?_append_of_some hstart ignoreStart
          cases hend : cut? ignoreEnd rest with
          | none =>
              -- The region of `p` is still open: it is closed by the end marker after `c`.
              have hnone : cut? ignoreEnd (rest ++ ignoreStart) = none := by
                have happend := cut?_append_of_none ignoreEnd_standsApart hend
                  "EUSE-IgnoreStart".toList
                have hstart : cut? ignoreEnd ('R' :: "EUSE-IgnoreStart".toList) = none := rfl
                rwa [hstart] at happend
              have hclosed := cut?_ignoreEnd_region hend hc s
              rw [outside_of_open hfirst' hnone]
              exact outside_of_closed hfirst hclosed
          | some inner =>
              obtain ⟨inside, after⟩ := inner
              have hclosed := cut?_append_of_some hend (ignoreStart ++ (c ++ (ignoreEnd ++ s)))
              have hclosed' := cut?_append_of_some hend ignoreStart
              have hlt : after.length < p.length :=
                Nat.lt_trans (length_lt_of_cut? hend (by decide))
                  (length_lt_of_cut? hstart (by decide))
              have hregion := ih after.length hlt after rfl
              rw [outside_of_closed hfirst' hclosed', List.append_assoc, ← hregion]
              exact outside_of_closed hfirst hclosed

/-- A text **ends on a closing line** when its first region opens on its
first line and the text ends on the line on which that region is
closed. -/
def EndsOnClosingLine (p : List Char) : Prop :=
  ∃ before inside after, p = region before inside after ∧ cut? ignoreStart before = none ∧
    '\n' ∉ before ∧ occurs ignoreEnd inside = false ∧ '\n' ∉ after

theorem dropLine_append_of_mem {a : List Char} (ha : '\n' ∈ a) (b : List Char) :
    dropLine (a ++ b) = dropLine a ++ b := by
  induction a with
  | nil => cases ha
  | cons c cs ih =>
      by_cases hc : c = '\n'
      · simp [dropLine, hc]
      · have hcs : '\n' ∈ cs := (List.mem_cons.1 ha).resolve_left (Ne.symm hc)
        simpa [dropLine, hc] using ih hcs

theorem dropLine_append_of_not_mem {a : List Char} (ha : '\n' ∉ a) (b : List Char) :
    dropLine (a ++ b) = dropLine b := by
  have hall : ∀ c ∈ a, (c != '\n') = true := by
    intro c hc
    simpa using fun he : c = '\n' => ha (he ▸ hc)
  rw [dropLine, dropLine, List.dropWhile_append_of_pos hall]

theorem outsideFromTop_of_later {cs before rest : List Char}
    (hstart : cut? ignoreStart cs = some (before, rest)) (hline : '\n' ∈ before) :
    outsideFromTop cs = outside cs := by
  simp [outsideFromTop, hstart, hline]

theorem outsideFromTop_of_first {cs before rest inside after : List Char}
    (hstart : cut? ignoreStart cs = some (before, rest)) (hline : '\n' ∉ before)
    (hend : cut? ignoreEnd rest = some (inside, after)) :
    outsideFromTop cs = outside (dropLine after) := by
  simp [outsideFromTop, hstart, hline, hend]

/-- What is outside of a text does not depend on what is inside a region,
unless the region opens on the line on which a region of the first line is
closed. -/
theorem outsideFromTop_region (hp : ¬ EndsOnClosingLine p) (hc : occurs ignoreEnd c = false)
    (s : List Char) : outsideFromTop (region p c s) = outsideFromTop (region p [] s) := by
  have hempty : occurs ignoreEnd [] = false := rfl
  have hsplit : outside (region p c s) = outside (region p [] s) := by
    rw [outside_region hc, outside_region hempty]
  cases hstart : cut? ignoreStart p with
  | none =>
      have hfirst (d : List Char) := cut?_ignoreStart_region hstart d s
      by_cases hline : '\n' ∈ p
      · rw [outsideFromTop_of_later (hfirst c) hline, outsideFromTop_of_later (hfirst []) hline,
          hsplit]
      · rw [outsideFromTop_of_first (hfirst c) hline (cut?_ignoreEnd_inside hc s),
          outsideFromTop_of_first (hfirst []) hline (cut?_ignoreEnd_inside hempty s)]
  | some parts =>
      obtain ⟨before, rest⟩ := parts
      have hfirst (d : List Char) :
          cut? ignoreStart (region p d s) = some (before, region rest d s) :=
        cut?_append_of_some hstart _
      by_cases hline : '\n' ∈ before
      · rw [outsideFromTop_of_later (hfirst c) hline, outsideFromTop_of_later (hfirst []) hline,
          hsplit]
      · cases hend : cut? ignoreEnd rest with
        | none =>
            rw [outsideFromTop_of_first (hfirst c) hline (cut?_ignoreEnd_region hend hc s),
              outsideFromTop_of_first (hfirst []) hline (cut?_ignoreEnd_region hend hempty s)]
        | some inner =>
            obtain ⟨inside, after⟩ := inner
            have hclosed (d : List Char) :
                cut? ignoreEnd (region rest d s) = some (inside, region after d s) :=
              cut?_append_of_some hend _
            -- Otherwise the new region would open on the line that closes the first one.
            have hafter : '\n' ∈ after := by
              by_contra hafter
              have hinside : occurs ignoreEnd inside = false :=
                occurs_eq_false_iff.2 (cut?_before_eq_none (by decide) hend)
              refine hp ⟨before, inside, after, ?_, ?_, hline, hinside, hafter⟩
              · rw [eq_append_of_cut? hstart, eq_append_of_cut? hend, region]
              · exact cut?_before_eq_none (by decide) hstart
            rw [outsideFromTop_of_first (hfirst c) hline (hclosed c),
              outsideFromTop_of_first (hfirst []) hline (hclosed []), region, region,
              dropLine_append_of_mem hafter, dropLine_append_of_mem hafter]
            exact (outside_region hc (dropLine after) s).trans
              (outside_region hempty (dropLine after) s).symm

/-- On the line on which a region of the first line is closed no region
opens: the next line that is looked at starts inside what was meant as a
region. -/
theorem EndsOnClosingLine.outsideFromTop_region (hp : EndsOnClosingLine p) (c s : List Char) :
    outsideFromTop (region p c s) = outside (dropLine (c ++ (ignoreEnd ++ s))) := by
  obtain ⟨before, inside, after, rfl, hbefore, hline, hinside, hafter⟩ := hp
  have happend : region (region before inside after) c s =
      region before inside (region after c s) := by
    simp [region]
  have hmarker : '\n' ∉ after ++ ignoreStart := by
    rw [List.mem_append, not_or]
    exact ⟨hafter, by decide⟩
  rw [happend, outsideFromTop_of_first (cut?_ignoreStart_region hbefore _ _) hline
    (cut?_ignoreEnd_inside hinside _), region, ← List.append_assoc,
    dropLine_append_of_not_mem hmarker]

theorem without_of_none {mark cs : List Char} (h : cut? mark cs = none) : without mark cs = cs := by
  rw [without]
  split
  · rfl
  · split
    · rfl
    · next hsome => rw [h] at hsome; cases hsome

theorem without_of_some {mark cs before rest : List Char} (hmark : mark ≠ [])
    (h : cut? mark cs = some (before, rest)) : without mark cs = before ++ without mark rest := by
  rw [without]
  split
  · next hnil => exact absurd hnil hmark
  · split
    · next hnone => rw [h] at hnone; cases hnone
    · next hsome =>
        rw [h] at hsome
        cases hsome
        rfl

/-- A text without a mark is visible as it is. -/
theorem visible_of_none {cs : List Char} (hstart : cut? ignoreStart cs = none)
    (hend : cut? ignoreEnd cs = none) : visible cs = cs := by
  rw [visible, outsideFromTop, hstart]
  exact without_of_none hend

theorem visible_region (hp : ¬ EndsOnClosingLine p) {c₁ c₂ : List Char}
    (hc₁ : occurs ignoreEnd c₁ = false) (hc₂ : occurs ignoreEnd c₂ = false) (s : List Char) :
    visible (region p c₁ s) = visible (region p c₂ s) := by
  rw [visible, visible, outsideFromTop_region hp hc₁, outsideFromTop_region hp hc₂]

/-- Text that stays on one line is hidden by every region. -/
theorem visible_region_of_line {c₁ c₂ : List Char} (hc₁ : occurs ignoreEnd c₁ = false)
    (hc₂ : occurs ignoreEnd c₂ = false) (hline₁ : '\n' ∉ c₁) (hline₂ : '\n' ∉ c₂)
    (p s : List Char) : visible (region p c₁ s) = visible (region p c₂ s) := by
  by_cases hp : EndsOnClosingLine p
  · rw [visible, visible, hp.outsideFromTop_region, hp.outsideFromTop_region,
      dropLine_append_of_not_mem hline₁, dropLine_append_of_not_mem hline₂]
  · exact visible_region hp hc₁ hc₂ s

/-- What is read from a text depends on what is looked at only. -/
theorem extract_eq_of_visible {t₁ t₂ : List Char} (h : visible t₁ = visible t₂) (v : Validator) :
    v.extract (String.ofList t₁) = v.extract (String.ofList t₂) := by
  have hfindings : findings (String.ofList t₁) = findings (String.ofList t₂) := by
    simp only [findings, String.toList_ofList, h]
  simp only [Validator.extract, hfindings]

/-- A text with a tag on a line of its own. -/
def tagged : List Char :=
  "\nSPDX-License-Identifier: MIT\n".toList

theorem EndsOnClosingLine.visible_tagged (hp : EndsOnClosingLine p) :
    visible (region p tagged []) = "SPDX-License-Identifier: MIT\n".toList := by
  have hline : dropLine (tagged ++ (ignoreEnd ++ [])) =
      "SPDX-License-Identifier: MIT\nREUSE-IgnoreEnd".toList := by decide
  have hcut : cut? ignoreEnd "SPDX-License-Identifier: MIT\nREUSE-IgnoreEnd".toList =
      some ("SPDX-License-Identifier: MIT\n".toList, []) := by decide +kernel
  rw [visible, hp.outsideFromTop_region, hline, outside_of_none (by decide),
    without_of_some (by decide) hcut, without_of_none (by decide), List.append_nil]

theorem EndsOnClosingLine.visible_empty (hp : EndsOnClosingLine p) :
    visible (region p [] []) = [] := by
  have hline : dropLine ([] ++ (ignoreEnd ++ [])) = [] := by decide
  rw [visible, hp.outsideFromTop_region, hline, outside_of_none (by decide),
    without_of_none (by decide)]

theorem EndsOnClosingLine.findings_tagged (hp : EndsOnClosingLine p) :
    findings (String.ofList (region p tagged [])) = [.license "MIT"] := by
  rw [findings, String.toList_ofList, hp.visible_tagged]
  decide +kernel

theorem EndsOnClosingLine.findings_empty (hp : EndsOnClosingLine p) :
    findings (String.ofList (region p [] [])) = [] := by
  rw [findings, String.toList_ofList, hp.visible_empty]
  rfl

/-- The tag inside the region is read, as a license or as a value that is
no license expression. -/
theorem EndsOnClosingLine.extract_ne (hp : EndsOnClosingLine p) (v : Validator) :
    v.extract (String.ofList (region p tagged [])) ≠
      v.extract (String.ofList (region p [] [])) := by
  intro h
  have htag : .license "MIT" ∈ findings (String.ofList (region p tagged [])) := by
    rw [hp.findings_tagged]
    exact List.mem_singleton_self _
  have hread : "MIT" ∈ (v.extract (String.ofList (region p tagged []))).1.tags.licenses ∨
      "MIT" ∈ (v.extract (String.ofList (region p tagged []))).1.unparsable :=
    Extraction.mem_of_license _ htag
  rw [h, Validator.extract, hp.findings_empty] at hread
  rcases hread with hlicense | hunparsable
  · cases hlicense
  · cases hunparsable

/-- **An ignore region hides its text exactly when it does not open on the
line on which a region of the first line is closed**: the text inside is
neither looked at nor read from, by any validator, and after such a line it
is both.  Text without a line end is hidden everywhere. -/
theorem region_hidden_iff (p : List Char) (v : Validator) :
    ((∀ c₁ c₂ s, occurs ignoreEnd c₁ = false → occurs ignoreEnd c₂ = false →
        visible (region p c₁ s) = visible (region p c₂ s)) ↔ ¬ EndsOnClosingLine p) ∧
    ((∀ c₁ c₂ s, occurs ignoreEnd c₁ = false → occurs ignoreEnd c₂ = false →
        v.extract (String.ofList (region p c₁ s)) = v.extract (String.ofList (region p c₂ s))) ↔
      ¬ EndsOnClosingLine p) ∧
    ∀ c₁ c₂ s, occurs ignoreEnd c₁ = false → occurs ignoreEnd c₂ = false →
      '\n' ∉ c₁ → '\n' ∉ c₂ →
      visible (region p c₁ s) = visible (region p c₂ s) ∧
      v.extract (String.ofList (region p c₁ s)) = v.extract (String.ofList (region p c₂ s)) := by
  have htagged : occurs ignoreEnd tagged = false := by decide
  refine ⟨⟨?_, ?_⟩, ⟨?_, ?_⟩, ?_⟩
  · intro hhidden hp
    have heq := hhidden tagged [] [] htagged rfl
    rw [hp.visible_tagged, hp.visible_empty] at heq
    cases heq
  · intro hp c₁ c₂ s hc₁ hc₂
    exact visible_region hp hc₁ hc₂ s
  · intro hhidden hp
    exact hp.extract_ne v (hhidden tagged [] [] htagged rfl)
  · intro hp c₁ c₂ s hc₁ hc₂
    exact extract_eq_of_visible (visible_region hp hc₁ hc₂ s) v
  · intro c₁ c₂ s hc₁ hc₂ hline₁ hline₂
    have hvisible := visible_region_of_line hc₁ hc₂ hline₁ hline₂ p s
    exact ⟨hvisible, extract_eq_of_visible hvisible v⟩

/-- A line on which a region was opened and closed, with a blank after it. -/
def closedLine : List Char :=
  "REUSE-IgnoreStart REUSE-IgnoreEnd ".toList

theorem endsOnClosingLine_closedLine : EndsOnClosingLine closedLine :=
  ⟨[], [' '], [' '], by decide, rfl, by decide, by decide, by decide⟩

/-- After such a first line the text of the region that opens there is
read. -/
theorem region_after_closedLine_not_hidden :
    occurs ignoreEnd tagged = false ∧ occurs ignoreEnd [] = false ∧
    visible (region closedLine tagged []) = "SPDX-License-Identifier: MIT\n".toList ∧
    visible (region closedLine [] []) = [] ∧
    ((Validator.new ⟨["MIT"], [], []⟩).extract
      (String.ofList (region closedLine tagged []))).1.tags.licenses = ["MIT"] ∧
    ((Validator.new ⟨["MIT"], [], []⟩).extract
      (String.ofList (region closedLine [] []))).1.tags.licenses = [] := by
  have hline := endsOnClosingLine_closedLine
  refine ⟨by decide, rfl, hline.visible_tagged, hline.visible_empty, ?_, ?_⟩
  · simp only [Validator.extract, hline.findings_tagged]
    decide +kernel
  · simp only [Validator.extract, hline.findings_empty]
    rfl

end Tag

end LicenseAudit
