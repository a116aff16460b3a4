import LicenseAudit.Proofs.Tag.Line
import LicenseAudit.Proofs.Tag.Segmentation

/-!
# Tags around an ignore region

When a region that does not open on the first line is cut out, the line on
which it opens, without the leader of its marker, and the line on which it
is closed become one line, their **junction**; every other line around the
region stays.  So the tags that are found are those of the other lines and
the one of the junction: `extract_region`.

A line has one tag, which reaches to its end.  The license of the upper line
is found on the junction when the lower line only closes a comment
(`finding?_junction_of_isClosing`), and that of the lower line when its tag
comes first there (`finding?_junction_of_comesFirst`).  Of two tags that meet
neither is found: `licenses_around_region_lost`.
-/

namespace LicenseAudit

open Text

namespace Tag

variable {a b before rest line : List Char} {value : String}

theorem lastPart_append_of_forall (hb : ∀ c ∈ b, isLineEnd c = false) (a : List Char) :
    lastPart (a ++ b) = lastPart a ++ b := by
  have hall : ∀ c ∈ b.reverse, (!isLineEnd c) = true := by
    intro c hc
    simp [hb c (List.mem_reverse.1 hc)]
  rw [lastPart, List.reverse_append, List.takeWhile_append_of_pos hall, List.reverse_append,
    List.reverse_reverse, ← lastPart]

theorem lastPart_append_cons {c : Char} (hc : isLineEnd c = true)
    (hb : ∀ d ∈ b, isLineEnd d = false) (a : List Char) : lastPart (a ++ c :: b) = b := by
  have hnil : lastPart (a ++ [c]) = [] := by simp [lastPart, hc]
  have hsplit : a ++ c :: b = (a ++ [c]) ++ b := by simp
  rw [hsplit, lastPart_append_of_forall hb, hnil, List.nil_append]

/-- A text with a line end is cut at its last one. -/
theorem exists_eq_append_lineEnd (h : ∃ c ∈ b, isLineEnd c = true) :
    ∃ front c, isLineEnd c = true ∧ b = front ++ c :: lastPart b ∧
      ∀ d ∈ lastPart b, isLineEnd d = false := by
  induction b using List.reverseRecOn with
  | nil =>
      obtain ⟨c, hc, -⟩ := h
      cases hc
  | append_singleton b d ih =>
      cases hd : isLineEnd d with
      | true =>
          have hlast : lastPart (b ++ [d]) = [] := lastPart_append_cons hd (List.forall_mem_nil _) b
          exact ⟨b, d, hd, by rw [hlast], by rw [hlast]; exact List.forall_mem_nil _⟩
      | false =>
          have hb : ∃ c ∈ b, isLineEnd c = true := by
            obtain ⟨c, hc, hline⟩ := h
            rcases List.mem_append.1 hc with hc | hc
            · exact ⟨c, hc, hline⟩
            · rw [List.mem_singleton.1 hc, hd] at hline
              cases hline
          obtain ⟨front, c, hc, hfront, hlast⟩ := ih hb
          have hlast' : lastPart (b ++ [d]) = lastPart b ++ [d] :=
            lastPart_append_of_forall (List.forall_mem_singleton.2 hd) b
          refine ⟨front, c, hc, ?_, ?_⟩
          · rw [hlast', ← List.cons_append, ← List.append_assoc, ← hfront]
          · rw [hlast', List.forall_mem_append]
            exact ⟨hlast, List.forall_mem_singleton.2 hd⟩

/-- What is found on a line is found in its last part. -/
theorem finding?_congr {other : List Char} (h : lastPart line = lastPart other) :
    finding? line = finding? other := by
  rw [finding?, finding?, h]

/-- The line that two lines become when what is between them is cut out. -/
def junction (a b : List Char) : List Char :=
  without ignoreEnd (a ++ b)

/-- The license tag of the lower line **comes first** on the junction: it
comes after a line end, or there is no other before it. -/
def ComesFirst (a b : List Char) : Prop :=
  (∃ c ∈ b, isLineEnd c = true) ∨
    ∀ before rest, cut? licenseTag b = some (before, rest) →
      occurs licenseTag (lastPart (junction a before)) = false

/-- No end marker ends in a text without its last character. -/
theorem without_ignoreEnd_append (hb : 'd' ∉ b) (a : List Char) :
    without ignoreEnd (a ++ b) = without ignoreEnd a ++ b := by
  have hend : ignoreEnd = "REUSE-IgnoreEn".toList ++ ['d'] := rfl
  exact without_append_of_getLast_not_mem hend hb a

theorem not_mem_of_isClosing (h : IsClosing b) : 'd' ∉ b := by
  have hforall : ∀ c ∈ b, c ≠ 'd' := by
    refine h.forall_mem (fun c hc hd => ?_) ?_
    · rw [hd] at hc
      exact absurd hc (by decide)
    · simp [commentClosers]
  exact fun hmem => hforall 'd' hmem rfl

/-- Closing text after a line makes no difference to its license. -/
theorem finding?_junction_of_isClosing (ha : cut? ignoreEnd a = none)
    (hfound : finding? a = some (.license value)) (hb : IsClosing b)
    (hline : ∀ c ∈ b, isLineEnd c = false) : finding? (junction a b) = some (.license value) := by
  obtain ⟨before, rest, hcut, hvalue, hne⟩ := finding?_eq_license_iff.1 hfound
  have hjunction : junction a b = a ++ b := by
    rw [junction, without_ignoreEnd_append (not_mem_of_isClosing hb), without_of_none ha]
  rw [hjunction]
  refine finding?_eq_license_iff.2 ⟨before, rest ++ b, ?_, ?_, hne⟩
  · rw [lastPart_append_of_forall hline]
    exact cut?_append_of_some hcut b
  · rw [stripClosers_append rest hb, hvalue]

/-- No end marker reaches into a license tag. -/
theorem without_append_licenseTag (hrest : cut? ignoreEnd (licenseTag ++ rest) = none)
    (a : List Char) : without ignoreEnd (a ++ (licenseTag ++ rest)) =
      without ignoreEnd a ++ (licenseTag ++ rest) := by
  -- The second character of the tag is in no end marker, and its first character ends none.
  obtain ⟨others, htag⟩ : ∃ others, licenseTag = 'S' :: 'P' :: others :=
    ⟨"DX-License-Identifier:".toList, rfl⟩
  have hsplit : a ++ (licenseTag ++ rest) = (a ++ ['S']) ++ 'P' :: (others ++ rest) := by
    simp [htag]
  have hinfix : others ++ rest <:+: licenseTag ++ rest := ⟨['S', 'P'], [], by simp [htag]⟩
  rw [hsplit, without_append_cons (by decide) (by decide), without_ignoreEnd_append (by decide),
    without_of_none (cut?_eq_none_of_isInfix hrest hinfix)]
  simp [htag]

/-- A license on the lower line is found on the junction when its tag comes
first there. -/
theorem finding?_junction_of_comesFirst (hb : cut? ignoreEnd b = none)
    (hfound : finding? b = some (.license value)) (hfirst : ComesFirst a b) :
    finding? (junction a b) = some (.license value) := by
  by_cases hline : ∃ c ∈ b, isLineEnd c = true
  · -- The end of the lower line is looked at alone, also on the junction.
    obtain ⟨front, c, hc, hsplit, hlast⟩ := exists_eq_append_lineEnd hline
    have hfeed : c ∉ ignoreEnd := by
      intro hmem
      have hends : ignoreEnd.all (!isLineEnd ·) = true := by decide
      simpa [hc] using List.all_eq_true.1 hends c hmem
    have hnone : cut? ignoreEnd (lastPart b) = none :=
      cut?_eq_none_of_isInfix hb
        ((List.suffix_cons c (lastPart b)).trans ⟨front, hsplit.symm⟩).isInfix
    have hjunction : junction a b = without ignoreEnd (a ++ front) ++ c :: lastPart b := by
      rw [junction, hsplit, ← List.append_assoc, without_append_cons (by decide) hfeed, ← hsplit,
        without_of_none hnone]
    rw [← hfound]
    refine finding?_congr ?_
    rw [hjunction, lastPart_append_cons hc hlast]
  · have hends : ∀ c ∈ b, isLineEnd c = false := by
      intro c hc
      by_contra hend
      exact hline ⟨c, hc, by simpa using hend⟩
    obtain ⟨before, rest, hcut, hvalue, hne⟩ := finding?_eq_license_iff.1 hfound
    rw [lastPart_eq_self hends] at hcut
    have hsplit := eq_append_of_cut? hcut
    have hbefore := hfirst.resolve_left hline before rest hcut
    have hnone : cut? ignoreEnd (licenseTag ++ rest) = none :=
      cut?_eq_none_of_isInfix hb ⟨before, [], by simp [hsplit]⟩
    have hjunction : junction a b = junction a before ++ (licenseTag ++ rest) := by
      rw [junction, hsplit, ← List.append_assoc, without_append_licenseTag hnone, junction]
    have hback : ∀ c ∈ licenseTag ++ rest, isLineEnd c = false :=
      fun c hc => hends c (hsplit ▸ List.mem_append_right before hc)
    refine finding?_eq_license_iff.2 ⟨lastPart (junction a before), rest, ?_, hvalue, hne⟩
    rw [hjunction, lastPart_append_of_forall hback]
    exact cut?_append_self licenseTag_standsApart (occurs_eq_false_iff.1 hbefore) rest

/-- A text **without markers** neither opens nor closes a region. -/
structure HasNoMarker (cs : List Char) : Prop where
  start : cut? ignoreStart cs = none
  close : cut? ignoreEnd cs = none

theorem HasNoMarker.of_isInfix {cs part : List Char} (h : HasNoMarker cs) (hpart : part <:+: cs) :
    HasNoMarker part :=
  ⟨cut?_eq_none_of_isInfix h.start hpart, cut?_eq_none_of_isInfix h.close hpart⟩

theorem visible_of_hasNoMarker {cs : List Char} (h : HasNoMarker cs) : visible cs = cs :=
  visible_of_none h.start h.close

/-- The first line of a text. -/
def firstLine (cs : List Char) : List Char :=
  (pieces '\n' cs).headD []

/-- The last line of a text. -/
def lastLine (cs : List Char) : List Char :=
  (pieces '\n' cs).getLastD []

theorem pieces_eq_firstLine_cons (cs : List Char) :
    pieces '\n' cs = firstLine cs :: (pieces '\n' cs).tail := by
  obtain ⟨line, lines, h⟩ := List.exists_cons_of_ne_nil (pieces_ne_nil '\n' cs)
  rw [firstLine, h]
  rfl

theorem pieces_eq_append_lastLine (cs : List Char) :
    pieces '\n' cs = (pieces '\n' cs).dropLast ++ [lastLine cs] := by
  obtain ⟨lines, line, h⟩ := (List.eq_nil_or_concat' _).resolve_left (pieces_ne_nil '\n' cs)
  rw [lastLine, h]
  simp

theorem firstLine_isInfix (cs : List Char) : firstLine cs <:+: cs := by
  apply isInfix_of_mem_pieces
  rw [pieces_eq_firstLine_cons]
  exact List.mem_cons_self

theorem lastLine_isInfix (cs : List Char) : lastLine cs <:+: cs := by
  apply isInfix_of_mem_pieces
  rw [pieces_eq_append_lastLine]
  exact List.mem_append_right _ (List.mem_singleton_self _)

variable {upper inside lower body : List Char}

/-- Around a region that does not open on the first line every line stays but
the two that meet. -/
theorem pieces_visible_region (hline : '\n' ∈ upper) (hupper : HasNoMarker upper)
    (hinside : occurs ignoreEnd inside = false) (hlower : HasNoMarker lower)
    (hbody : IsBody upper body) : pieces '\n' (visible (region upper inside lower)) =
      (pieces '\n' body).dropLast ++
        junction (lastLine body) (firstLine lower) :: (pieces '\n' lower).tail := by
  have hstart := cut?_ignoreStart_region hupper.start inside lower
  obtain rfl := (isBody_dropLeader upper).unique hbody
  obtain ⟨leader, -, hsplit⟩ := hbody.cut
  have hfree : HasNoMarker (dropLeader upper) := hupper.of_isInfix ⟨[], leader, hsplit.symm⟩
  have hvisible : visible (region upper inside lower) =
      without ignoreEnd (dropLeader upper ++ lower) := by
    rw [visible, outsideFromTop_of_later hstart hline,
      outside_of_closed hstart (cut?_ignoreEnd_inside hinside lower), outside_of_none hlower.start]
  have hkept {cs : List Char} (hcs : HasNoMarker cs) :
      (pieces '\n' cs).map (without ignoreEnd) = pieces '\n' cs := by
    rw [← pieces_without (by decide) (by decide), without_of_none hcs.close]
  rw [hvisible, pieces_without (by decide) (by decide),
    pieces_append_of_eq (pieces_eq_append_lastLine _) (pieces_eq_firstLine_cons lower),
    List.map_append, List.map_cons, List.map_dropLast, List.map_tail, hkept hfree, hkept hlower,
    junction]

end Tag

open Tag

/-- **The tags around an ignore region**: what is extracted is what is found
on the other lines and on the junction.  A license on the last line before
the region is found when the first line after it only closes a comment, and
one on the first line after it is found when its tag comes first on the
junction. -/
theorem Validator.extract_region (v : Validator) {upper inside lower body : List Char}
    {whole : Extraction} (hline : '\n' ∈ upper) (hupper : HasNoMarker upper)
    (hinside : occurs ignoreEnd inside = false) (hlower : HasNoMarker lower)
    (hbody : IsBody upper body)
    (hwhole : (v.extract (String.ofList (region upper inside lower))).1 = whole) :
    whole = v.found ((pieces '\n' body).dropLast ++
      junction (lastLine body) (firstLine lower) :: (pieces '\n' lower).tail) ∧
    (∀ value ∈ (v.found ((pieces '\n' body).dropLast ++ (pieces '\n' lower).tail)).tags.licenses,
      value ∈ whole.tags.licenses) ∧
    (IsClosing (firstLine lower) → (∀ c ∈ firstLine lower, isLineEnd c = false) →
      ∀ value ∈ (v.extract (String.ofList body)).1.tags.licenses,
        value ∈ whole.tags.licenses) ∧
    (ComesFirst (lastLine body) (firstLine lower) →
      ∀ value ∈ (v.extract (String.ofList lower)).1.tags.licenses,
        value ∈ whole.tags.licenses) := by
  obtain ⟨leader, -, hsplit⟩ := hbody.cut
  have hfree : HasNoMarker body := hupper.of_isInfix ⟨[], leader, hsplit.symm⟩
  have hfound : whole = v.found ((pieces '\n' body).dropLast ++
      junction (lastLine body) (firstLine lower) :: (pieces '\n' lower).tail) := by
    rw [← hwhole, v.extract_eq_found, String.toList_ofList,
      pieces_visible_region hline hupper hinside hlower hbody]
  have hlast : cut? ignoreEnd (lastLine body) = none :=
    (hfree.of_isInfix (lastLine_isInfix body)).close
  have hfirst : cut? ignoreEnd (firstLine lower) = none :=
    (hlower.of_isInfix (firstLine_isInfix lower)).close
  rw [hfound]
  refine ⟨rfl, ?_, ?_, ?_⟩
  · refine v.licenses_found_mono fun line hline value hfinding => ⟨line, ?_, hfinding⟩
    rcases List.mem_append.1 hline with h | h
    · exact List.mem_append_left _ h
    · exact List.mem_append_right _ (List.mem_cons_of_mem _ h)
  · intro hclosing hends
    have hbodyFound : (v.extract (String.ofList body)).1 =
        v.found ((pieces '\n' body).dropLast ++ [lastLine body]) := by
      rw [extract_eq_found, String.toList_ofList, visible_of_hasNoMarker hfree,
        ← pieces_eq_append_lastLine]
    rw [hbodyFound]
    refine v.licenses_found_mono fun line hline value hfinding => ?_
    rcases List.mem_append.1 hline with h | h
    · exact ⟨line, List.mem_append_left _ h, hfinding⟩
    · obtain rfl := List.mem_singleton.1 h
      exact ⟨_, List.mem_append_right _ List.mem_cons_self,
        finding?_junction_of_isClosing hlast hfinding hclosing hends⟩
  · intro hcomes
    have hlowerFound : (v.extract (String.ofList lower)).1 =
        v.found (firstLine lower :: (pieces '\n' lower).tail) := by
      rw [extract_eq_found, String.toList_ofList, visible_of_hasNoMarker hlower,
        ← pieces_eq_firstLine_cons]
    rw [hlowerFound]
    refine v.licenses_found_mono fun line hline value hfinding => ?_
    rcases List.mem_cons.1 hline with rfl | h
    · exact ⟨_, List.mem_append_right _ List.mem_cons_self,
        finding?_junction_of_comesFirst hfirst hfinding hcomes⟩
    · exact ⟨line, List.mem_append_right _ (List.mem_cons_of_mem _ h), hfinding⟩

/-- A line with a license above a region, and one on the line that it ends
on. -/
theorem Validator.extract_region_apart :
    "MIT" ∈ ((new ⟨["MIT"], [], []⟩).extract (String.ofList (region
      "# SPDX-License-Identifier: MIT\n# ".toList " x\n".toList
      " y SPDX-License-Identifier: ISC */".toList))).1.tags.licenses ∧
    "ISC" ∈ ((new ⟨["MIT"], [], []⟩).extract (String.ofList (region
      "# SPDX-License-Identifier: MIT\n# ".toList " x\n".toList
      " y SPDX-License-Identifier: ISC */".toList))).1.tags.licenses := by
  obtain ⟨-, hother, -, hfirst⟩ := @extract_region (new ⟨["MIT"], [], []⟩)
    "# SPDX-License-Identifier: MIT\n# ".toList " x\n".toList
    " y SPDX-License-Identifier: ISC */".toList "# SPDX-License-Identifier: MIT\n".toList _
    (by decide) ⟨by decide +kernel, by decide +kernel⟩ (by decide +kernel)
    ⟨by decide +kernel, by decide +kernel⟩ (isBody_dropLeader _) rfl
  refine ⟨hother "MIT" (by decide +kernel), hfirst (Or.inr ?_) "ISC" (by decide +kernel)⟩
  intro before rest hcut
  have hbefore : before = " y ".toList := by
    have hcut' : cut? licenseTag " y SPDX-License-Identifier: ISC */".toList =
        some (" y ".toList, " ISC */".toList) := by decide +kernel
    have hsame := hcut.symm.trans hcut'
    exact congrArg Prod.fst (Option.some.inj hsame)
  rw [hbefore]
  decide +kernel

/-- Two license tags that meet where a region is cut out are both lost. -/
theorem licenses_around_region_lost :
    '\n' ∈ "x\n# SPDX-License-Identifier: MIT # ".toList ∧
    HasNoMarker "x\n# SPDX-License-Identifier: MIT # ".toList ∧
    occurs ignoreEnd "\n# ".toList = false ∧
    HasNoMarker " SPDX-License-Identifier: ISC\n".toList ∧
    IsBody "x\n# SPDX-License-Identifier: MIT # ".toList
      "x\n# SPDX-License-Identifier: MIT".toList ∧
    ((Validator.new ⟨["MIT", "ISC"], [], []⟩).extract (String.ofList
      "x\n# SPDX-License-Identifier: MIT".toList)).1.tags.licenses = ["MIT"] ∧
    ((Validator.new ⟨["MIT", "ISC"], [], []⟩).extract (String.ofList
      " SPDX-License-Identifier: ISC\n".toList)).1.tags.licenses = ["ISC"] ∧
    ((Validator.new ⟨["MIT", "ISC"], [], []⟩).extract (String.ofList (region
      "x\n# SPDX-License-Identifier: MIT # ".toList "\n# ".toList
      " SPDX-License-Identifier: ISC\n".toList))).1.tags.licenses = [] := by
  refine ⟨by decide, ⟨by decide +kernel, by decide +kernel⟩, by decide +kernel,
    ⟨by decide +kernel, by decide +kernel⟩, isBody_dropLeader _, ?_, ?_, ?_⟩
  · decide +kernel
  · decide +kernel
  · decide +kernel

end LicenseAudit
