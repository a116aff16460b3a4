import LicenseAudit.Proofs.Expression.Identifier
import LicenseAudit.Proofs.Tag.Closer
import LicenseAudit.Proofs.Tag.IgnoreRegion

/-!
# What is found on a line

An extraction is what is found on the visible lines of a text, each read
alone: `extract_eq_found`.  More lines never take a finding away
(`found_isPart`).  A mark that is taken out is taken out of each line, as no
mark reaches across a line end: `pieces_without`.

A license tag that is the first on its line is read with what follows it,
without the closing text at the end (`finding?_eq_license_iff`).  As closing
text never reaches into an expression, a line that tells a license is read
back exactly: `extract_headerLine`.
-/

namespace LicenseAudit

open Text Tag

/-- An extraction is **part** of another when all that it found is found
there as well. -/
structure Extraction.IsPart (part whole : Extraction) : Prop where
  tags : ∀ kind, ∀ line ∈ part.tags.lines kind, line ∈ whole.tags.lines kind
  unparsable : ∀ value ∈ part.unparsable, value ∈ whole.unparsable

theorem Extraction.isPart_ofFindings (parsed : String → Bool) {fs gs : List Finding}
    (h : ∀ f ∈ fs, f ∈ gs) : (ofFindings parsed fs).IsPart (ofFindings parsed gs) := by
  have hfilterMap (read? : Finding → Option String) :
      ∀ line ∈ fs.filterMap read?, line ∈ gs.filterMap read? := by
    intro line hline
    obtain ⟨f, hf, hread⟩ := List.mem_filterMap.1 hline
    exact List.mem_filterMap.2 ⟨f, h f hf, hread⟩
  refine ⟨fun kind line hline => ?_, fun value hvalue => ?_⟩
  · cases kind with
    | copyrights =>
        simp only [ofFindings, Fields.sorted, Fields.lines, mem_sortedUnique] at hline ⊢
        exact hfilterMap _ line hline
    | licenses =>
        simp only [ofFindings, Fields.sorted, Fields.lines, mem_sortedUnique,
          List.mem_filter] at hline ⊢
        exact ⟨hfilterMap _ line hline.1, hline.2⟩
    | contributors =>
        simp only [ofFindings, Fields.sorted, Fields.lines, mem_sortedUnique] at hline ⊢
        exact hfilterMap _ line hline
  · simp only [ofFindings, mem_sortedUnique, List.mem_filter] at hvalue ⊢
    exact ⟨hfilterMap _ value hvalue.1, hvalue.2⟩

/-- What is found on some lines. -/
def Validator.found (v : Validator) (lines : List (List Char)) : Extraction :=
  .ofFindings (fun value => (v.validate value).1.parsed) (lines.filterMap finding?)

/-- An extraction is what is found on the visible lines. -/
theorem Validator.extract_eq_found (v : Validator) (text : String) :
    (v.extract text).1 = v.found (pieces '\n' (visible text.toList)) := by
  simp only [extract, fst_validate_validateAll, found, findings]

theorem Validator.found_isPart (v : Validator) {lines others : List (List Char)}
    (h : ∀ line ∈ lines, ∀ f, finding? line = some f → ∃ other ∈ others, finding? other = some f) :
    (v.found lines).IsPart (v.found others) := by
  refine Extraction.isPart_ofFindings _ fun f hf => ?_
  obtain ⟨line, hline, hfound⟩ := List.mem_filterMap.1 hf
  exact List.mem_filterMap.2 (h line hline f hfound)

/-- The licenses found on some lines are the values there that are
expressions. -/
theorem Validator.mem_licenses_found {v : Validator} {lines : List (List Char)} {value : String} :
    value ∈ (v.found lines).tags.licenses ↔
      (v.validate value).1.parsed = true ∧
        ∃ line ∈ lines, finding? line = some (.license value) := by
  have hlicense (f : Finding) : f.license? = some value ↔ f = .license value := by
    cases f <;> simp [Finding.license?]
  simp only [found, Extraction.ofFindings, Fields.sorted, mem_sortedUnique, List.mem_filter,
    List.mem_filterMap, hlicense, exists_eq_right]
  exact and_comm

/-- Licenses that are found on lines are found on others that tell them. -/
theorem Validator.licenses_found_mono (v : Validator) {lines others : List (List Char)}
    (h : ∀ line ∈ lines, ∀ value, finding? line = some (.license value) →
      ∃ other ∈ others, finding? other = some (.license value)) :
    ∀ value ∈ (v.found lines).tags.licenses, value ∈ (v.found others).tags.licenses := by
  intro value hvalue
  obtain ⟨hparsed, line, hline, hfinding⟩ := mem_licenses_found.1 hvalue
  exact mem_licenses_found.2 ⟨hparsed, h line hline value hfinding⟩

namespace Tag

variable {line a b before rest : List Char} {value : String}

variable {mark cs : List Char} {separator last : Char}

/-- Marks are taken out on either side of a character that they do not
have. -/
theorem without_append_cons (hmark : mark ≠ []) (hseparator : separator ∉ mark) (a b : List Char) :
    without mark (a ++ separator :: b) = without mark a ++ separator :: without mark b := by
  induction a using without.induct mark with
  | case1 a hnil => exact absurd hnil hmark
  | case2 a _ hcut =>
      have happend := cut?_append_cons hmark hseparator hcut b
      rw [without_of_none hcut]
      cases hb : cut? mark b with
      | none =>
          rw [hb] at happend
          rw [without_of_none happend, without_of_none hb]
      | some parts =>
          rw [hb] at happend
          rw [without_of_some hmark happend, without_of_some hmark hb]
          simp
  | case3 a _ before rest hcut ih =>
      rw [without_of_some hmark (cut?_append_of_some hcut _), without_of_some hmark hcut, ih,
        List.append_assoc]

/-- Text that the last character of the mark does not occur in stays as it is
at the end. -/
theorem without_append_of_getLast_not_mem {others : List Char} (hmark : mark = others ++ [last])
    (hb : last ∉ b) (a : List Char) : without mark (a ++ b) = without mark a ++ b := by
  have hne : mark ≠ [] := by simp [hmark]
  induction a using without.induct mark with
  | case1 a hnil => exact absurd hnil hne
  | case2 a _ hcut =>
      rw [without_of_none hcut, without_of_none (cut?_append_of_getLast_not_mem hmark hcut hb)]
  | case3 a _ before rest hcut ih =>
      rw [without_of_some hne (cut?_append_of_some hcut _), without_of_some hne hcut, ih,
        List.append_assoc]

theorem mem_of_mem_without {c : Char} (h : c ∈ without mark cs) : c ∈ cs := by
  induction cs using without.induct mark with
  | case1 cs hmark => rwa [without, dif_pos hmark] at h
  | case2 cs _ hcut => rwa [without_of_none hcut] at h
  | case3 cs hmark before rest hcut ih =>
      rw [without_of_some hmark hcut] at h
      rw [eq_append_of_cut? hcut]
      rcases List.mem_append.1 h with h | h
      · exact List.mem_append_left _ h
      · exact List.mem_append_right _ (List.mem_append_right _ (ih h))

/-- Marks are taken out of each piece. -/
theorem pieces_without (hmark : mark ≠ []) (hseparator : separator ∉ mark) (cs : List Char) :
    pieces separator (without mark cs) = (pieces separator cs).map (without mark) := by
  induction hn : cs.length using Nat.strongRecOn generalizing cs with
  | ind n ih =>
      subst hn
      by_cases hmem : separator ∈ cs
      · obtain ⟨a, b, rfl, ha⟩ := List.eq_append_cons_of_mem hmem
        have hlt : b.length < (a ++ separator :: b).length := by
          simp only [List.length_append, List.length_cons]
          omega
        rw [without_append_cons hmark hseparator, pieces_append_cons ha,
          pieces_append_cons fun h => ha (mem_of_mem_without h), ih b.length hlt b rfl,
          List.map_cons]
      · rw [pieces_of_not_mem hmem, pieces_of_not_mem fun h => hmem (mem_of_mem_without h),
          List.map_singleton]

/-- A line without line ends is looked at as a whole. -/
theorem lastPart_eq_self (h : ∀ c ∈ line, isLineEnd c = false) : lastPart line = line := by
  rw [lastPart, List.takeWhile_eq_self_iff.2, List.reverse_reverse]
  intro c hc
  simp [h c (List.mem_reverse.1 hc)]

theorem licenseTag_standsApart : StandsApart 'S' licenseTag :=
  ⟨"PDX-License-Identifier:".toList, rfl, by decide⟩

theorem value?_eq_some_iff :
    value? rest = some value ↔ stripClosers rest = value.toList ∧ value ≠ "" := by
  rw [value?]
  constructor
  · intro h
    split at h
    · cases h
    · next hne =>
        cases h
        refine ⟨String.toList_ofList.symm, fun hnil => hne ?_⟩
        rw [← String.toList_eq_nil_iff, String.toList_ofList] at hnil
        rw [hnil]
        rfl
  · rintro ⟨hvalue, hne⟩
    rw [hvalue, if_neg, String.ofList_toList]
    rwa [List.isEmpty_iff, String.toList_eq_nil_iff]

/-- A license is found on a line when the text after its first license tag
is more than closing text. -/
theorem finding?_eq_license_iff :
    finding? line = some (.license value) ↔
      ∃ before rest, cut? licenseTag (lastPart line) = some (before, rest) ∧
        stripClosers rest = value.toList ∧ value ≠ "" := by
  have hread : (cut? licenseTag (lastPart line)).bind (value? ·.2) = some value ↔
      ∃ before rest, cut? licenseTag (lastPart line) = some (before, rest) ∧
        stripClosers rest = value.toList ∧ value ≠ "" := by
    simp only [Option.bind_eq_some_iff, Prod.exists, value?_eq_some_iff]
  rw [← hread, finding?]
  cases (cut? licenseTag (lastPart line)).bind (value? ·.2) with
  | some other => simp
  | none =>
      dsimp only
      split
      · simp
      · split
        · split <;> simp
        · simp

/-- A line with a license tag: what stands in front of the tag, the blanks
and the value after it, and what ends the line. -/
def headerLine (leader gap value ending : List Char) : List Char :=
  leader ++ (licenseTag ++ (gap ++ (value ++ ending)))

/-- Every closer has a character that no expression has. -/
theorem exists_foreign_of_mem_closer :
    ∀ closer ∈ commentClosers, ∃ c ∈ closer, Expression.isExpressionChar c = false := by
  have hall : commentClosers.all (·.any (!Expression.isExpressionChar ·)) = true := by
    decide +kernel
  simpa using hall

/-- Closing text that follows an expression is all that is taken off it. -/
theorem stripClosers_expression {e : Expression} (hparse : Expression.parse value = .ok e)
    (htrim : trimmed value = value) {gap ending : List Char} (hgap : ∀ c ∈ gap, isBlank c = true)
    (hending : IsClosing ending) :
    stripClosers (gap ++ (value.toList ++ ending)) = value.toList := by
  have hvalue : trim value.toList = value.toList := by
    simpa [trimmed] using congrArg String.toList htrim
  have hgapped : trim (gap ++ value.toList) = value.toList := by
    rw [trim, trimLeft_append_of_blank hgap, ← trim, hvalue]
  rw [← List.append_assoc, stripClosers_append _ hending, stripClosers, hgapped]
  refine dropClosers_of_none (dropCloser?_eq_none_iff.2 fun closer hcloser hsuffix => ?_)
  obtain ⟨c, hc, hforeign⟩ := exists_foreign_of_mem_closer closer hcloser
  rw [Expression.isExpressionChar_of_parse hparse c (hsuffix.subset hc)] at hforeign
  cases hforeign

theorem finding?_headerLine {e : Expression} (hparse : Expression.parse value = .ok e)
    (htrim : trimmed value = value) {leader gap ending : List Char}
    (hleader : occurs licenseTag leader = false) (hgap : ∀ c ∈ gap, isBlank c = true)
    (hending : IsClosing ending)
    (hline : ∀ c ∈ headerLine leader gap value.toList ending, isLineEnd c = false) :
    finding? (headerLine leader gap value.toList ending) = some (.license value) := by
  refine finding?_eq_license_iff.2 ⟨leader, gap ++ (value.toList ++ ending), ?_, ?_, ?_⟩
  · rw [lastPart_eq_self hline]
    exact cut?_append_self licenseTag_standsApart (occurs_eq_false_iff.1 hleader) _
  · exact stripClosers_expression hparse htrim hgap hending
  · exact Expression.ne_empty_of_parse hparse

end Tag

/-- **A license header is read back exactly**: from a line with a license
tag, a trimmed expression and closing text, without line ends and ignore
markers, the expression is extracted as it is written, and nothing else. -/
theorem Validator.extract_headerLine (catalog : Catalog) (history : List String)
    {leader gap ending : List Char} {value : String} {e : Expression}
    (hparse : Expression.parse value = .ok e) (htrim : trimmed value = value)
    (hleader : occurs licenseTag leader = false) (hgap : ∀ c ∈ gap, isBlank c = true)
    (hending : IsClosing ending)
    (hline : ∀ c ∈ headerLine leader gap value.toList ending, isLineEnd c = false)
    (hstart : occurs ignoreStart (headerLine leader gap value.toList ending) = false)
    (hend : occurs ignoreEnd (headerLine leader gap value.toList ending) = false) :
    (((new catalog).validateAll history).extract
      (String.ofList (headerLine leader gap value.toList ending))).1 =
      ⟨⟨[], [value], []⟩, []⟩ := by
  have hfeed : '\n' ∉ headerLine leader gap value.toList ending := by
    intro hmem
    exact absurd (hline '\n' hmem) (by decide)
  have hparsed : (catalog.validate value).parsed = true := catalog.parsed_validate.2 ⟨e, hparse⟩
  rw [extract_eq_found, String.toList_ofList,
    visible_of_none (occurs_eq_false_iff.1 hstart) (occurs_eq_false_iff.1 hend),
    pieces_of_not_mem hfeed, found, List.filterMap_cons,
    finding?_headerLine hparse htrim hleader hgap hending hline]
  simp [List.filterMap_cons, Extraction.ofFindings, Finding.license?, Finding.contributor?,
    Finding.copyright?, validate_validateAll, hparsed, Fields.sorted, sortedUnique, insertUnique]

/-- Hyphens and a parenthesis that belong to the expression stay with it,
however closely closers follow them. -/
theorem Validator.extract_headerLine_stacked :
    (((new ⟨["MIT"], [], []⟩).validateAll ["MIT", "("]).extract
      "<!-- SPDX-License-Identifier: (GPL-2.0+ WITH x) OR (MIT--)*)-->*/ \"/>").1 =
      ⟨⟨[], ["(GPL-2.0+ WITH x) OR (MIT--)"], []⟩, []⟩ := by
  have hending : IsClosing ([] ++ "*)".toList ++ "-->".toList ++ "*/".toList ++ [' '] ++
      "\"/>".toList) := by
    refine .closer (.blank (.closer (.closer (.closer .nil ?_) ?_) ?_) rfl) ?_ <;>
      simp [commentClosers]
  have hline : (headerLine "<!-- ".toList [' '] "(GPL-2.0+ WITH x) OR (MIT--)".toList
      ("*)-->*/ \"/>".toList)).all (!isLineEnd ·) = true := by
    decide +kernel
  have hparse : Expression.parse "(GPL-2.0+ WITH x) OR (MIT--)" =
      .ok (.either (.withException ⟨"GPL-2.0", true⟩ "x") (.license ⟨"MIT--", false⟩)) := by
    decide +kernel
  exact @extract_headerLine ⟨["MIT"], [], []⟩ ["MIT", "("] "<!-- ".toList [' '] _
    "(GPL-2.0+ WITH x) OR (MIT--)" _ hparse (by decide +kernel) (by decide +kernel)
    (List.forall_mem_singleton.2 rfl) hending (by simpa using hline) (by decide +kernel)
    (by decide +kernel)

end LicenseAudit
