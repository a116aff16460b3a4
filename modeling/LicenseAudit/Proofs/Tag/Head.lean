import LicenseAudit.Proofs.Tag.Line
import LicenseAudit.Proofs.Tag.Segmentation

/-!
# What the head of a text shows

A text is a **head** of another when the two agree but for the last line of
the head.  Taking out ignore regions keeps this, wherever the head ends:
within a marker, within a region or between regions.  So every visible line
of a head is a visible line of the whole text, the last one excepted:
`IsHead.visible`.

The last visible line is a line of the whole text as well when the head
ends where a line ends and leaves no region open:
`LeavesNoneOpen.visible_append`.
-/

namespace LicenseAudit

open Text

namespace Tag

/-- `head` is a **head** of `whole`: the two agree but for the last line of
`head`. -/
def IsHead (head whole : List Char) : Prop :=
  ∃ start last rest, head = start ++ last ∧ whole = start ++ rest ∧ '\n' ∉ last

variable {a b cs head whole : List Char}

theorem IsHead.of_not_mem (h : '\n' ∉ head) (whole : List Char) : IsHead head whole :=
  ⟨[], head, whole, rfl, rfl, h⟩

theorem isHead_append (a b : List Char) : IsHead a (a ++ b) :=
  ⟨a, [], b, (List.append_nil a).symm, rfl, List.not_mem_nil⟩

theorem isHead_refl (a : List Char) : IsHead a a :=
  ⟨a, [], [], (List.append_nil a).symm, (List.append_nil a).symm, List.not_mem_nil⟩

theorem IsHead.append_left (h : IsHead head whole) (a : List Char) :
    IsHead (a ++ head) (a ++ whole) := by
  obtain ⟨start, last, rest, rfl, rfl, hlast⟩ := h
  exact ⟨a ++ start, last, rest, (List.append_assoc ..).symm, (List.append_assoc ..).symm, hlast⟩

/-- The whole text has all of the first part of a head, or the second part
is on the last line. -/
theorem IsHead.append_cases (h : IsHead (a ++ b) whole) :
    (∃ rest, whole = a ++ rest ∧ IsHead b rest) ∨ IsHead a whole ∧ '\n' ∉ b := by
  obtain ⟨start, last, rest, hhead, rfl, hlast⟩ := h
  rcases List.append_eq_append_iff.1 hhead with ⟨m, rfl, rfl⟩ | ⟨m, rfl, rfl⟩
  · exact .inl ⟨m ++ rest, List.append_assoc .., m, last, rest, rfl, rfl, hlast⟩
  · rw [List.mem_append, not_or] at hlast
    exact .inr ⟨⟨start, m, rest, rfl, rfl, hlast.1⟩, hlast.2⟩

/-- The last line of a head may end in any way. -/
theorem isHead_append_iff (hb : '\n' ∉ b) : IsHead (a ++ b) whole ↔ IsHead a whole := by
  constructor
  · intro h
    rcases h.append_cases with ⟨rest, rfl, -⟩ | ⟨ha, -⟩
    · exact isHead_append a rest
    · exact ha
  · intro h
    obtain ⟨start, last, rest, rfl, rfl, hlast⟩ := h
    refine ⟨start, last ++ b, rest, List.append_assoc .., rfl, ?_⟩
    rw [List.mem_append, not_or]
    exact ⟨hlast, hb⟩

/-- A text keeps its heads when only the end of its last line changes. -/
theorem IsHead.change_end (h : IsHead head (a ++ b)) (hb : '\n' ∉ b) (c : List Char) :
    IsHead head (a ++ c) := by
  obtain ⟨start, last, rest, rfl, hwhole, hlast⟩ := h
  rcases List.append_eq_append_iff.1 hwhole with ⟨m, rfl, rfl⟩ | ⟨m, rfl, rfl⟩
  · rw [List.mem_append, not_or] at hb
    rw [List.append_assoc, isHead_append_iff]
    · exact isHead_append a c
    · rw [List.mem_append, not_or]
      exact ⟨hb.1, hlast⟩
  · rw [List.append_assoc, isHead_append_iff hlast]
    exact isHead_append start (m ++ c)

/-- A head without the mark ends before its first occurrence in the whole
text, but for its last line. -/
theorem IsHead.of_cut? {mark before rest : List Char} (h : IsHead head whole)
    (hmark : '\n' ∉ mark) (hhead : cut? mark head = none)
    (hwhole : cut? mark whole = some (before, rest)) : IsHead head before := by
  obtain ⟨start, last, more, rfl, rfl, hlast⟩ := h
  rcases List.append_eq_append_iff.1 (eq_append_of_cut? hwhole) with ⟨m, rfl, -⟩ | ⟨m, rfl, hm⟩
  · rw [isHead_append_iff hlast]
    exact isHead_append start m
  · rcases List.append_eq_append_iff.1 hm with ⟨k, rfl, -⟩ | ⟨k, rfl, -⟩
    · have hinfix : mark <:+: before ++ (mark ++ k) ++ last := ⟨before, k ++ last, by simp⟩
      exact absurd hinfix (cut?_eq_none_iff.1 hhead)
    · rw [List.mem_append, not_or] at hmark
      rw [List.append_assoc, isHead_append_iff]
      · exact isHead_refl before
      · rw [List.mem_append, not_or]
        exact ⟨hmark.1, hlast⟩

/-- The whole text has the first mark of a head as well, or it is on the last
line of the head. -/
theorem IsHead.cut?_cases {first : Char} {mark before rest : List Char} (h : IsHead head whole)
    (hmark : StandsApart first mark) (hline : '\n' ∉ mark)
    (hhead : cut? mark head = some (before, rest)) :
    (∃ others, cut? mark whole = some (before, others) ∧ IsHead rest others) ∨
      IsHead before whole ∧ '\n' ∉ rest := by
  have hfree := cut?_before_eq_none hmark.ne_nil hhead
  rw [eq_append_of_cut? hhead, ← List.append_assoc] at h
  rcases h.append_cases with ⟨others, rfl, hrest⟩ | ⟨hmarked, hrest⟩
  · refine .inl ⟨others, ?_, hrest⟩
    rw [List.append_assoc]
    exact cut?_append_self hmark hfree others
  · exact .inr ⟨(isHead_append_iff hline).1 hmarked, hrest⟩

/-- The lines of a head but the last are lines of the whole text. -/
theorem IsHead.pieces (h : IsHead head whole) :
    (pieces '\n' head).dropLast <+: pieces '\n' whole := by
  obtain ⟨start, last, rest, rfl, rfl, hlast⟩ := h
  obtain ⟨lines, line, hstart⟩ :=
    (List.eq_nil_or_concat' _).resolve_left (pieces_ne_nil '\n' start)
  obtain ⟨first, others, hrest⟩ := List.exists_cons_of_ne_nil (pieces_ne_nil '\n' rest)
  rw [pieces_append_of_eq hstart (pieces_of_not_mem hlast), pieces_append_of_eq hstart hrest,
    List.dropLast_concat]
  exact List.prefix_append _ _

theorem IsLeader.not_mem {leader : List Char} (h : IsLeader leader) : '\n' ∉ leader := by
  obtain ⟨left, sign, right, rfl, hleft, hsign, hright⟩ := h
  have hblank {cs : List Char} (hcs : ∀ c ∈ cs, isLeaderBlank c = true) : '\n' ∉ cs := by
    intro hmem
    exact absurd (hcs '\n' hmem) (by decide)
  have hsign : '\n' ∉ sign := by
    rcases hsign with rfl | hsign
    · exact List.not_mem_nil
    · have hall : commentLeaders.all (!·.contains '\n') = true := by decide
      simpa using List.all_eq_true.1 hall sign hsign
  simp only [List.mem_append, not_or]
  exact ⟨hblank hleft, hsign, hblank hright⟩

/-- Before a region only the end of a line is dropped. -/
theorem exists_eq_dropLeader_append (cs : List Char) :
    ∃ leader, cs = dropLeader cs ++ leader ∧ '\n' ∉ leader := by
  obtain ⟨leader, hleader, hcs⟩ := (isBody_dropLeader cs).cut
  exact ⟨leader, hcs, hleader.not_mem⟩

theorem outside_sublist (cs : List Char) : (outside cs).Sublist cs := by
  induction cs using outside.induct with
  | case1 cs hstart => rw [outside_of_none hstart]
  | case2 cs before rest hstart ih =>
      obtain ⟨leader, hbefore, -⟩ := exists_eq_dropLeader_append before
      have hbody : (dropLeader before).Sublist before :=
        List.IsPrefix.sublist ⟨leader, hbefore.symm⟩
      have hcs := eq_append_of_cut? hstart
      cases hend : cut? ignoreEnd rest with
      | none =>
          rw [outside_of_open hstart hend]
          exact hcs ▸ hbody.trans (List.sublist_append_left before _)
      | some inner =>
          obtain ⟨inside, after⟩ := inner
          have hafter : (outside after).Sublist (ignoreStart ++ rest) := by
            rw [eq_append_of_cut? hend, ← List.append_assoc, ← List.append_assoc]
            exact (ih inside after hend).trans (List.sublist_append_right _ after)
          rw [outside_of_closed hstart hend]
          exact hcs ▸ hbody.append hafter

/-- What is outside goes on from the text before the first region with text
after its start marker. -/
theorem exists_outside_eq_append {before rest : List Char}
    (hstart : cut? ignoreStart cs = some (before, rest)) :
    ∃ more, outside cs = dropLeader before ++ more ∧ more.Sublist rest := by
  cases hend : cut? ignoreEnd rest with
  | none =>
      refine ⟨[], ?_, List.nil_sublist rest⟩
      rw [outside_of_open hstart hend, List.append_nil]
  | some inner =>
      obtain ⟨inside, after⟩ := inner
      refine ⟨outside after, outside_of_closed hstart hend, ?_⟩
      rw [eq_append_of_cut? hend, ← List.append_assoc]
      exact (outside_sublist after).trans (List.sublist_append_right _ after)

/-- A head that opens no region is a head of what is outside. -/
theorem IsHead.outside_of_none (h : IsHead head whole) (hhead : cut? ignoreStart head = none) :
    IsHead head (outside whole) := by
  cases hstart : cut? ignoreStart whole with
  | none => rwa [Tag.outside_of_none hstart]
  | some parts =>
      obtain ⟨before, rest⟩ := parts
      obtain ⟨leader, hbefore, hleader⟩ := exists_eq_dropLeader_append before
      obtain ⟨more, houtside, -⟩ := exists_outside_eq_append hstart
      have hcut : IsHead head (dropLeader before ++ leader) :=
        hbefore ▸ h.of_cut? (by decide) hhead hstart
      rw [houtside]
      exact hcut.change_end hleader more

/-- **What is outside of a head** is a head of what is outside of the whole
text. -/
theorem IsHead.outside (h : IsHead head whole) : IsHead (outside head) (outside whole) := by
  -- The whole text is cut where the head is, region by region.
  induction head using outside.induct generalizing whole with
  | case1 head hstart =>
      rw [Tag.outside_of_none hstart]
      exact h.outside_of_none hstart
  | case2 head before rest hstart ih =>
      obtain ⟨leader, hbefore, hleader⟩ := exists_eq_dropLeader_append before
      obtain ⟨shown, hshown, hrest⟩ := exists_outside_eq_append hstart
      rcases h.cut?_cases ignoreStart_standsApart (by decide) hstart with
        ⟨others, hstart', hothers⟩ | ⟨hcut, hline⟩
      · obtain ⟨more, hmore, -⟩ := exists_outside_eq_append hstart'
        cases hend : cut? ignoreEnd rest with
        | none =>
            rw [outside_of_open hstart hend, hmore]
            exact isHead_append _ more
        | some inner =>
            obtain ⟨inside, after⟩ := inner
            rw [outside_of_closed hstart hend]
            rcases hothers.cut?_cases ignoreEnd_standsApart (by decide) hend with
              ⟨others, hend', hafter⟩ | ⟨-, hline⟩
            · rw [outside_of_closed hstart' hend']
              exact (ih inside after hend hafter).append_left _
            · -- The end marker is on the last line of the head.
              rw [hmore, isHead_append_iff fun h => hline ((outside_sublist after).subset h)]
              exact isHead_append _ more
      · -- The start marker is on the last line of the head.
        have hbody : IsHead (dropLeader before) whole :=
          (isHead_append_iff hleader).1 (hbefore ▸ hcut)
        have hfree : cut? ignoreStart (dropLeader before) = none :=
          cut?_eq_none_of_isInfix (cut?_before_eq_none (by decide) hstart)
            ⟨[], leader, hbefore.symm⟩
        rw [hshown, isHead_append_iff fun h => hline (hrest.subset h)]
        exact hbody.outside_of_none hfree

theorem dropLine_of_not_mem (h : '\n' ∉ cs) : dropLine cs = [] := by
  simpa [dropLine] using dropLine_append_of_not_mem h []

theorem IsHead.dropLine (h : IsHead head whole) : IsHead (dropLine head) (dropLine whole) := by
  by_cases hline : '\n' ∈ head
  · obtain ⟨start, last, rest, rfl, rfl, hlast⟩ := h
    have hstart := (List.mem_append.1 hline).resolve_right hlast
    rw [dropLine_append_of_mem hstart, dropLine_append_of_mem hstart]
    exact ⟨Tag.dropLine start, last, rest, rfl, rfl, hlast⟩
  · rw [dropLine_of_not_mem hline]
    exact .of_not_mem List.not_mem_nil _

/-- No region opens on the first line of the whole text when none opens in a
head of more than one line. -/
theorem IsHead.outsideFromTop_eq (h : IsHead head whole) (hline : '\n' ∈ head)
    (hhead : cut? ignoreStart head = none) : outsideFromTop whole = Tag.outside whole := by
  cases hstart : cut? ignoreStart whole with
  | none => rw [outsideFromTop, hstart, Tag.outside_of_none hstart]
  | some parts =>
      obtain ⟨before, rest⟩ := parts
      refine outsideFromTop_of_later hstart ?_
      obtain ⟨start, last, more, rfl, rfl, hlast⟩ := h.of_cut? (by decide) hhead hstart
      exact List.mem_append_left more ((List.mem_append.1 hline).resolve_right hlast)

theorem IsHead.outsideFromTop (h : IsHead head whole) :
    IsHead (outsideFromTop head) (outsideFromTop whole) := by
  cases hstart : cut? ignoreStart head with
  | none =>
      have hsame : Tag.outsideFromTop head = head := by rw [Tag.outsideFromTop, hstart]
      rw [hsame]
      by_cases hline : '\n' ∈ head
      · rw [h.outsideFromTop_eq hline hstart]
        exact h.outside_of_none hstart
      · exact .of_not_mem hline _
  | some parts =>
      obtain ⟨before, rest⟩ := parts
      have hcases := h.cut?_cases ignoreStart_standsApart (by decide) hstart
      by_cases hbefore : '\n' ∈ before
      · rw [outsideFromTop_of_later hstart hbefore]
        rcases hcases with ⟨others, hstart', -⟩ | ⟨hcut, -⟩
        · rw [outsideFromTop_of_later hstart' hbefore]
          exact h.outside
        · rw [hcut.outsideFromTop_eq hbefore (cut?_before_eq_none (by decide) hstart)]
          exact h.outside
      · cases hend : cut? ignoreEnd rest with
        | none =>
            have hnil : Tag.outsideFromTop head = [] := by
              simp [Tag.outsideFromTop, hstart, hbefore, hend]
            rw [hnil]
            exact .of_not_mem List.not_mem_nil _
        | some inner =>
            obtain ⟨inside, after⟩ := inner
            rw [outsideFromTop_of_first hstart hbefore hend]
            by_cases hafter : '\n' ∈ after
            · -- Both markers are in front of the last line, so the whole text has them.
              have hrest : '\n' ∈ rest := by simp [eq_append_of_cut? hend, hafter]
              obtain ⟨others, hstart', hothers⟩ := hcases.resolve_right fun h => h.2 hrest
              obtain ⟨others', hend', hothers'⟩ :=
                (hothers.cut?_cases ignoreEnd_standsApart (by decide) hend).resolve_right
                  fun h => h.2 hafter
              rw [outsideFromTop_of_first hstart' hbefore hend']
              exact hothers'.dropLine.outside
            · rw [dropLine_of_not_mem hafter, Tag.outside_of_none rfl]
              exact .of_not_mem List.not_mem_nil _

/-- **The visible lines of a head** but the last are visible lines of the
whole text. -/
theorem IsHead.visible (h : IsHead head whole) :
    (Text.pieces '\n' (visible head)).dropLast <+: Text.pieces '\n' (visible whole) := by
  rw [Tag.visible, Tag.visible, pieces_without (by decide) (by decide),
    pieces_without (by decide) (by decide), ← List.map_dropLast]
  exact h.outsideFromTop.pieces.map _

/-- A text **leaves no region open** when an end marker follows every start
marker. -/
def LeavesNoneOpen (cs : List Char) : Prop :=
  ∀ after, ignoreStart ++ after <:+ cs → occurs ignoreEnd after = true

theorem LeavesNoneOpen.of_isSuffix {part : List Char} (h : LeavesNoneOpen cs)
    (hpart : part <:+ cs) : LeavesNoneOpen part :=
  fun after hafter => h after (hafter.trans hpart)

/-- The first region of a text that leaves none open is closed. -/
theorem LeavesNoneOpen.exists_cut? {before rest : List Char} (h : LeavesNoneOpen cs)
    (hstart : cut? ignoreStart cs = some (before, rest)) :
    ∃ inside after, cut? ignoreEnd rest = some (inside, after) ∧ after <:+ cs := by
  have hcs := eq_append_of_cut? hstart
  have hclosed := h rest ⟨before, hcs.symm⟩
  cases hend : cut? ignoreEnd rest with
  | none =>
      rw [occurs, hend] at hclosed
      cases hclosed
  | some inner =>
      obtain ⟨inside, after⟩ := inner
      refine ⟨inside, after, rfl, before ++ (ignoreStart ++ (inside ++ ignoreEnd)), ?_⟩
      rw [hcs, eq_append_of_cut? hend]
      simp

/-- A line end stays when the leader at the end of a later line is dropped. -/
theorem exists_dropLeader_append_cons (a b : List Char) :
    ∃ rest, dropLeader (a ++ '\n' :: b) = a ++ '\n' :: rest := by
  obtain ⟨leader, hsplit, hleader⟩ := exists_eq_dropLeader_append (a ++ '\n' :: b)
  rcases List.append_eq_append_iff.1 hsplit with ⟨m, hbody, hm⟩ | ⟨m, -, rfl⟩
  · cases m with
    | nil =>
        rw [List.nil_append] at hm
        rw [← hm] at hleader
        exact absurd List.mem_cons_self hleader
    | cons c rest =>
        obtain ⟨rfl, -⟩ := List.cons.inj hm
        exact ⟨rest, hbody⟩
  · exact absurd (List.mem_append_right m List.mem_cons_self) hleader

/-- Lines after a text that leaves no region open come after what is outside
of it. -/
theorem LeavesNoneOpen.outside_append (h : LeavesNoneOpen cs) (b : List Char) :
    ∃ rest, outside (cs ++ '\n' :: b) = outside cs ++ '\n' :: rest := by
  induction cs using outside.induct with
  | case1 cs hstart =>
      rw [outside_of_none hstart]
      cases hstart' : cut? ignoreStart (cs ++ '\n' :: b) with
      | none => exact ⟨b, outside_of_none hstart'⟩
      | some parts =>
          obtain ⟨before, rest⟩ := parts
          obtain ⟨more, houtside, -⟩ := exists_outside_eq_append hstart'
          rw [cut?_append_cons (by decide) (by decide) hstart, Option.map_eq_some_iff] at hstart'
          obtain ⟨parts, -, hparts⟩ := hstart'
          obtain ⟨rfl, -⟩ := Prod.mk.inj hparts
          obtain ⟨kept, hkept⟩ := exists_dropLeader_append_cons cs parts.1
          rw [houtside, hkept]
          exact ⟨kept ++ more, by simp⟩
  | case2 cs before rest hstart ih =>
      obtain ⟨inside, after, hend, hafter⟩ := h.exists_cut? hstart
      obtain ⟨more, hmore⟩ := ih inside after hend (h.of_isSuffix hafter)
      refine ⟨more, ?_⟩
      rw [outside_of_closed (cut?_append_of_some hstart _) (cut?_append_of_some hend _),
        outside_of_closed hstart hend, hmore, List.append_assoc]

/-- Lines after a text that leaves no region open leave its visible lines as
they are, if it shows any. -/
theorem LeavesNoneOpen.visible_append (h : LeavesNoneOpen cs) (b : List Char) :
    visible cs = [] ∨
      Text.pieces '\n' (visible cs) <+: Text.pieces '\n' (visible (cs ++ '\n' :: b)) := by
  have hlines {rest : List Char}
      (hrest : outsideFromTop (cs ++ '\n' :: b) = outsideFromTop cs ++ '\n' :: rest) :
      Text.pieces '\n' (visible cs) <+: Text.pieces '\n' (visible (cs ++ '\n' :: b)) := by
    rw [visible, visible, hrest, without_append_cons (by decide) (by decide), pieces_append]
    exact List.prefix_append _ _
  cases hstart : cut? ignoreStart cs with
  | none =>
      have hsame : outsideFromTop cs = cs := by rw [outsideFromTop, hstart]
      have hline : cut? ignoreStart (cs ++ ['\n']) = none := by
        rw [cut?_append_cons (by decide) (by decide) hstart]
        rfl
      have hhead : IsHead (cs ++ ['\n']) (cs ++ '\n' :: b) := by
        simpa using isHead_append (cs ++ ['\n']) b
      obtain ⟨rest, hrest⟩ := h.outside_append b
      refine .inr (@hlines rest ?_)
      rw [hhead.outsideFromTop_eq (List.mem_append_right cs List.mem_cons_self) hline, hsame, hrest,
        outside_of_none hstart]
  | some parts =>
      obtain ⟨before, others⟩ := parts
      have hstart' := cut?_append_of_some hstart ('\n' :: b)
      obtain ⟨inside, after, hend, hafter⟩ := h.exists_cut? hstart
      by_cases hbefore : '\n' ∈ before
      · obtain ⟨rest, hrest⟩ := h.outside_append b
        refine .inr (@hlines rest ?_)
        rw [outsideFromTop_of_later hstart' hbefore, outsideFromTop_of_later hstart hbefore, hrest]
      · by_cases hline : '\n' ∈ after
        · have hnone : LeavesNoneOpen (dropLine after) :=
            h.of_isSuffix (((List.drop_suffix 1 _).trans (List.dropWhile_suffix _)).trans hafter)
          obtain ⟨rest, hrest⟩ := hnone.outside_append b
          refine .inr (@hlines rest ?_)
          rw [outsideFromTop_of_first hstart' hbefore (cut?_append_of_some hend _),
            outsideFromTop_of_first hstart hbefore hend, dropLine_append_of_mem hline, hrest]
        · -- The head is on the line that is dropped with the first region.
          left
          rw [visible, outsideFromTop_of_first hstart hbefore hend, dropLine_of_not_mem hline,
            outside_of_none rfl]
          exact without_of_none rfl

end Tag

end LicenseAudit
