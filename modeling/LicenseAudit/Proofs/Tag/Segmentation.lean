import LicenseAudit.Proofs.Tag.IgnoreRegion
import Mathlib.Data.List.Infix
import Mathlib.Data.List.TakeWhile

/-!
# The segments of a text

A text is a sequence of segments, in turn outside ignore regions and inside
them, and there is only one way to see it so (`existsUnique_segmentation`).
When no region opens on its first line, what is looked at is put together
from the outer segments: `visible_iff_segments`.  Each one before a region loses
its comment leader, and end markers that are left are taken out where they
are found from left to right; nothing else is changed.

The two operations at the ends of this are described by what they leave.
`IsBody` is a text without the longest leader at its end (a shorter one
could be followed by the sign of a longer one), `IsPurged` a text without
the marks that cut it into parts.
-/

namespace LicenseAudit.Tag

open Text

/-- A comment leader: a sign that starts a comment, or no sign, and the
leader blanks around it. -/
def IsLeader (cs : List Char) : Prop :=
  ∃ left sign right, cs = left ++ (sign ++ right) ∧ (∀ c ∈ left, isLeaderBlank c = true) ∧
    (sign = [] ∨ sign ∈ commentLeaders) ∧ ∀ c ∈ right, isLeaderBlank c = true

/-- `body` is `cs` **without its leader**: a leader is cut off the end of
`cs`, and no other would leave less. -/
structure IsBody (cs body : List Char) : Prop where
  cut : ∃ leader, IsLeader leader ∧ cs = body ++ leader
  shortest : ∀ other leader, IsLeader leader → cs = other ++ leader → body <+: other

variable {cs body rest : List Char}

theorem IsBody.unique {body' : List Char} (h : IsBody cs body) (h' : IsBody cs body') :
    body = body' := by
  obtain ⟨leader, hleader, hcs⟩ := h.cut
  obtain ⟨leader', hleader', hcs'⟩ := h'.cut
  have hle := (h.shortest body' leader' hleader' hcs').length_le
  have hge := (h'.shortest body leader hleader hcs).length_le
  exact (h.shortest body' leader' hleader' hcs').eq_of_length (by omega)

theorem isLeaderBlank_of_mem_leader :
    ∀ sign ∈ commentLeaders, ∀ c ∈ sign, isLeaderBlank c = false := by
  simp [commentLeaders, isLeaderBlank]

theorem leader_ne_nil {sign : List Char} (h : sign ∈ commentLeaders) : sign ≠ [] := by
  rintro rfl
  simp [commentLeaders] at h

/-- No leader is the end of one that is tried after it. -/
theorem pairwise_commentLeaders : commentLeaders.Pairwise fun a b => ¬ a <:+ b := by
  decide +kernel

theorem exists_eq_dropBlanksEnd_append (cs : List Char) :
    ∃ right, cs = dropBlanksEnd cs ++ right ∧ ∀ c ∈ right, isLeaderBlank c = true := by
  refine ⟨(cs.reverse.takeWhile isLeaderBlank).reverse, ?_, fun c hc => ?_⟩
  · rw [dropBlanksEnd, ← List.reverse_append, List.takeWhile_append_dropWhile, List.reverse_reverse]
  · exact List.mem_takeWhile_imp (List.mem_reverse.1 hc)

theorem dropBlanksEnd_isPrefix (cs : List Char) : dropBlanksEnd cs <+: cs := by
  obtain ⟨right, hcs, -⟩ := exists_eq_dropBlanksEnd_append cs
  exact ⟨right, hcs.symm⟩

theorem dropBlanksEnd_append_of_blank {right : List Char}
    (hright : ∀ c ∈ right, isLeaderBlank c = true) (cs : List Char) :
    dropBlanksEnd (cs ++ right) = dropBlanksEnd cs := by
  rw [dropBlanksEnd, List.reverse_append,
    List.dropWhile_append_of_pos fun c hc => hright c (List.mem_reverse.1 hc), ← dropBlanksEnd]

theorem dropBlanksEnd_append_leader {sign : List Char} (h : sign ∈ commentLeaders)
    (cs : List Char) : dropBlanksEnd (cs ++ sign) = cs ++ sign := by
  obtain ⟨others, last, rfl⟩ := (List.eq_nil_or_concat' sign).resolve_left (leader_ne_nil h)
  have hlast := isLeaderBlank_of_mem_leader _ h last (by simp)
  simp [dropBlanksEnd, hlast]

theorem dropBlanksEnd_isPrefix_append (cs more : List Char) :
    dropBlanksEnd cs <+: dropBlanksEnd (cs ++ more) := by
  rw [dropBlanksEnd, dropBlanksEnd, List.reverse_append, List.dropWhile_append]
  split
  · exact List.prefix_rfl
  · rw [List.reverse_append, List.reverse_reverse]
    exact (dropBlanksEnd_isPrefix cs).trans (List.prefix_append _ _)

/-- A leader at the end of a text leaves only its sign there when the blanks
are dropped. -/
theorem IsLeader.dropBlanksEnd_append {leader : List Char} (h : IsLeader leader)
    (body : List Char) : dropBlanksEnd (body ++ leader) = dropBlanksEnd body ∨
      ∃ left, (∀ c ∈ left, isLeaderBlank c = true) ∧
        ∃ sign ∈ commentLeaders, dropBlanksEnd (body ++ leader) = body ++ left ++ sign := by
  obtain ⟨left, sign, right, rfl, hleft, hsign, hright⟩ := h
  rw [← List.append_assoc, ← List.append_assoc, dropBlanksEnd_append_of_blank hright]
  cases hsign with
  | inl hnil =>
      left
      rw [hnil, List.append_nil, dropBlanksEnd_append_of_blank hleft]
  | inr hmem =>
      right
      exact ⟨left, hleft, sign, hmem, dropBlanksEnd_append_leader hmem _⟩

/-- The sign that is dropped is the longest that the text ends with. -/
theorem exists_sign_of_findSome? (h : commentLeaders.findSome? (dropEnd? · cs) = some rest) :
    ∃ sign ∈ commentLeaders, cs = rest ++ sign ∧
      ∀ other ∈ commentLeaders, other <:+ cs → other <:+ sign := by
  obtain ⟨before, sign, after, hsplit, hdrop, hbefore⟩ := List.findSome?_eq_some_iff.1 h
  have hcs := dropEnd?_eq_some_iff.1 hdrop
  refine ⟨sign, by simp [hsplit], hcs, fun other hother hsuffix => ?_⟩
  rw [hsplit, List.mem_append, List.mem_cons] at hother
  rcases hother with hother | rfl | hother
  · obtain ⟨start, hstart⟩ := hsuffix
    have hnone := hbefore other hother
    rw [dropEnd?_eq_some_iff.2 hstart.symm] at hnone
    cases hnone
  · exact List.suffix_rfl
  · have hpairwise := pairwise_commentLeaders
    rw [hsplit, List.pairwise_append, List.pairwise_cons] at hpairwise
    have hnot : ¬ sign <:+ other := hpairwise.2.1.1 other hother
    exact (List.suffix_or_suffix_of_suffix hsuffix ⟨rest, hcs.symm⟩).resolve_right hnot

/-- `dropLeader` leaves a text without its leader. -/
theorem isBody_dropLeader (cs : List Char) : IsBody cs (dropLeader cs) := by
  obtain ⟨right, hcs, hright⟩ := exists_eq_dropBlanksEnd_append cs
  rw [dropLeader]
  cases hfind : commentLeaders.findSome? (dropEnd? · (dropBlanksEnd cs)) with
  | none =>
      refine ⟨⟨right, ⟨[], [], right, rfl, List.forall_mem_nil _, .inl rfl, hright⟩, hcs⟩, ?_⟩
      intro other leader hleader hother
      rcases hleader.dropBlanksEnd_append other with h | ⟨left, -, sign, hsign, h⟩
      · rw [hother, h]
        exact dropBlanksEnd_isPrefix other
      · rw [← hother] at h
        have hdrop := List.findSome?_eq_none_iff.1 hfind sign hsign
        rw [dropEnd?_eq_some_iff.2 h] at hdrop
        cases hdrop
  | some rest =>
      obtain ⟨sign, hsign, hrest, hlongest⟩ := exists_sign_of_findSome? hfind
      obtain ⟨left, hleft, hblank⟩ := exists_eq_dropBlanksEnd_append rest
      have hleader : IsLeader (left ++ (sign ++ right)) :=
        ⟨left, sign, right, rfl, hblank, .inr hsign, hright⟩
      refine ⟨⟨_, hleader, ?_⟩, ?_⟩
      · rw [← List.append_assoc, ← hleft, ← List.append_assoc, ← hrest, ← hcs]
      · intro other leader hleader hother
        rcases hleader.dropBlanksEnd_append other with h | ⟨left', hleft', sign', hsign', h⟩
        · rw [← hother, hrest] at h
          have hstart : rest <+: other :=
            (List.prefix_append rest sign).trans (h ▸ dropBlanksEnd_isPrefix other)
          exact (dropBlanksEnd_isPrefix rest).trans hstart
        · -- The sign that was dropped may be longer than the one of this leader.
          rw [← hother] at h
          obtain ⟨more, rfl⟩ := hlongest sign' hsign' ⟨other ++ left', h.symm⟩
          have hmore : rest ++ more = other ++ left' := by
            rw [hrest, ← List.append_assoc] at h
            exact List.append_cancel_right h
          calc dropBlanksEnd rest
              _ <+: dropBlanksEnd (rest ++ more) := dropBlanksEnd_isPrefix_append rest more
              _ = dropBlanksEnd other := by rw [hmore, dropBlanksEnd_append_of_blank hleft']
              _ <+: other := dropBlanksEnd_isPrefix other

/-- `out` is `cs` **without the marks** that cut it into parts free of
marks; a mark that the parts form together stays. -/
def IsPurged (mark cs out : List Char) : Prop :=
  ∃ part parts, (∀ p ∈ part :: parts, occurs mark p = false) ∧
    cs = joined mark (part :: parts) ∧ out = (part :: parts).flatten

theorem isPurged_without {mark : List Char} (hmark : mark ≠ []) (cs : List Char) :
    IsPurged mark cs (without mark cs) := by
  induction cs using without.induct mark with
  | case1 cs hnil => exact absurd hnil hmark
  | case2 cs _ hcut =>
      refine ⟨cs, [], List.forall_mem_singleton.2 (occurs_eq_false_iff.2 hcut), rfl, ?_⟩
      rw [without_of_none hcut, List.flatten_singleton]
  | case3 cs _ before rest hcut ih =>
      obtain ⟨part, parts, hfree, hrest, hout⟩ := ih
      have hbefore := occurs_eq_false_iff.2 (cut?_before_eq_none hmark hcut)
      refine ⟨before, part :: parts, List.forall_mem_cons.2 ⟨hbefore, hfree⟩, ?_, ?_⟩
      · rw [eq_append_of_cut? hcut, hrest]
        rfl
      · rw [without_of_some hmark hcut, hout]
        exact List.flatten_cons.symm

/-- A text can be cut at marks that stand apart in one way only. -/
theorem IsPurged.eq_without {first : Char} {mark out : List Char} (hmark : StandsApart first mark)
    (h : IsPurged mark cs out) : without mark cs = out := by
  obtain ⟨part, parts, hfree, rfl, rfl⟩ := h
  induction parts generalizing part with
  | nil =>
      have hpart := occurs_eq_false_iff.1 (hfree part List.mem_cons_self)
      rw [joined, without_of_none hpart, List.flatten_singleton]
  | cons next parts ih =>
      obtain ⟨hpart, hnext⟩ := List.forall_mem_cons.1 hfree
      have hnone := occurs_eq_false_iff.1 hpart
      have hcut := cut?_append_self hmark hnone (joined mark (next :: parts))
      have hjoined : joined mark (part :: next :: parts) =
          part ++ (mark ++ joined mark (next :: parts)) := rfl
      rw [hjoined, without_of_some hmark.ne_nil hcut, ih next hnext]
      exact List.flatten_cons.symm

/-- A text as a sequence of segments: it ends outside, or in a region that is
never closed, or goes on after a region. -/
inductive Segmentation where
  | outside (v : List Char)
  | opened (v c : List Char)
  | region (v c : List Char) (rest : Segmentation)

namespace Segmentation

variable {s t : Segmentation}

/-- The segments with the markers between them. -/
def text : Segmentation → List Char
  | outside v => v
  | opened v c => v ++ (ignoreStart ++ c)
  | region v c rest => Tag.region v c rest.text

/-- No start marker is in an outer segment, no end marker in an inner one. -/
def IsProper : Segmentation → Prop
  | outside v => occurs ignoreStart v = false
  | opened v c => occurs ignoreStart v = false ∧ occurs ignoreEnd c = false
  | region v c rest => occurs ignoreStart v = false ∧ occurs ignoreEnd c = false ∧ rest.IsProper

/-- `kept` is what the outer segments come to, each one before a region
without its leader. -/
def Keeps : Segmentation → List Char → Prop
  | outside v, kept => kept = v
  | opened v _, kept => IsBody v kept
  | region v _ rest, kept =>
      ∃ body others, IsBody v body ∧ rest.Keeps others ∧ kept = body ++ others

/-- What is found around the first start marker. -/
def start? : Segmentation → Option (List Char × List Char)
  | outside _ => none
  | opened v c => some (v, c)
  | region v c rest => some (v, c ++ (ignoreEnd ++ rest.text))

theorem IsProper.cut?_text (h : s.IsProper) : cut? ignoreStart s.text = s.start? := by
  cases s with
  | outside v => exact occurs_eq_false_iff.1 h
  | opened v c => exact cut?_append_self ignoreStart_standsApart (occurs_eq_false_iff.1 h.1) c
  | region v c rest => exact cut?_ignoreStart_region (occurs_eq_false_iff.1 h.1) c rest.text

/-- Two ways to see a text as segments are one way. -/
theorem IsProper.eq_of_text_eq (hs : s.IsProper) (ht : t.IsProper) (h : s.text = t.text) :
    s = t := by
  induction s generalizing t with
  | outside v =>
      have hstart := hs.cut?_text.symm.trans ((congrArg _ h).trans ht.cut?_text)
      cases t with
      | outside w => exact congrArg outside h
      | opened w d => cases hstart
      | region w d rest => cases hstart
  | opened v c =>
      have hstart := hs.cut?_text.symm.trans ((congrArg _ h).trans ht.cut?_text)
      cases t with
      | outside w => cases hstart
      | opened w d =>
          cases hstart
          rfl
      | region w d rest =>
          cases hstart
          have hclosed := cut?_ignoreEnd_inside ht.2.1 rest.text
          rw [occurs_eq_false_iff.1 hs.2] at hclosed
          cases hclosed
  | region v c others ih =>
      have hstart := hs.cut?_text.symm.trans ((congrArg _ h).trans ht.cut?_text)
      have hclosed := cut?_ignoreEnd_inside hs.2.1 others.text
      cases t with
      | outside w => cases hstart
      | opened w d =>
          cases hstart
          rw [occurs_eq_false_iff.1 ht.2] at hclosed
          cases hclosed
      | region w d rest =>
          obtain ⟨rfl, hinside⟩ := Prod.mk.inj (Option.some.inj hstart)
          rw [hinside, cut?_ignoreEnd_inside ht.2.1] at hclosed
          obtain ⟨rfl, htext⟩ := Prod.mk.inj (Option.some.inj hclosed)
          rw [ih hs.2.2 ht.2.2 htext.symm]

/-- Every text is a sequence of segments. -/
theorem exists_text_eq (cs : List Char) : ∃ s : Segmentation, s.IsProper ∧ s.text = cs := by
  induction cs using Tag.outside.induct with
  | case1 cs hstart => exact ⟨outside cs, occurs_eq_false_iff.2 hstart, rfl⟩
  | case2 cs before rest hstart ih =>
      have hcs := eq_append_of_cut? hstart
      have hbefore := occurs_eq_false_iff.2 (cut?_before_eq_none (by decide) hstart)
      cases hend : cut? ignoreEnd rest with
      | none => exact ⟨opened before rest, ⟨hbefore, occurs_eq_false_iff.2 hend⟩, hcs.symm⟩
      | some inner =>
          obtain ⟨inside, after⟩ := inner
          have hinside := occurs_eq_false_iff.2 (cut?_before_eq_none (by decide) hend)
          obtain ⟨s, hs, htext⟩ := ih inside after hend
          refine ⟨region before inside s, ⟨hbefore, hinside, hs⟩, ?_⟩
          rw [text, htext, hcs, eq_append_of_cut? hend, Tag.region]

/-- **A text is a sequence of segments in exactly one way.** -/
theorem existsUnique_segmentation (cs : List Char) :
    ∃! s : Segmentation, s.IsProper ∧ s.text = cs := by
  obtain ⟨s, hs, htext⟩ := exists_text_eq cs
  exact ⟨s, ⟨hs, htext⟩, fun t ht => ht.1.eq_of_text_eq hs (ht.2.trans htext.symm)⟩

/-- What the outer segments come to is what is outside. -/
theorem IsProper.keeps_iff (h : s.IsProper) {kept : List Char} :
    s.Keeps kept ↔ Tag.outside s.text = kept := by
  have hbody (v kept : List Char) : IsBody v kept ↔ dropLeader v = kept :=
    ⟨(isBody_dropLeader v).unique, fun hv => hv ▸ isBody_dropLeader v⟩
  induction s generalizing kept with
  | outside v =>
      rw [text, outside_of_none (occurs_eq_false_iff.1 h)]
      exact eq_comm
  | opened v c =>
      rw [outside_of_open h.cut?_text (occurs_eq_false_iff.1 h.2)]
      exact hbody v kept
  | region v c rest ih =>
      rw [outside_of_closed h.cut?_text (cut?_ignoreEnd_inside h.2.1 rest.text)]
      simp only [Keeps, hbody, ih h.2.2, exists_and_left, exists_eq_left']
      exact eq_comm

end Segmentation

/-- When no region opens on the first line, every region leaves the text
before it on its own lines. -/
theorem outsideFromTop_eq_outside
    (h : occurs ignoreStart (cs.takeWhile (· != '\n')) = false) :
    outsideFromTop cs = outside cs := by
  cases hstart : cut? ignoreStart cs with
  | none => rw [outside_of_none hstart, outsideFromTop, hstart]
  | some parts =>
      obtain ⟨before, rest⟩ := parts
      refine outsideFromTop_of_later hstart ?_
      by_contra hline
      have hfirst : ∀ c ∈ before ++ ignoreStart, (c != '\n') = true := by
        intro c hc
        rcases List.mem_append.1 hc with hc | hc
        · simpa using fun he : c = '\n' => hline (he ▸ hc)
        · have hfeed : '\n' ∉ ignoreStart := by decide
          simpa using fun he : c = '\n' => hfeed (he ▸ hc)
      have hinfix : ignoreStart <:+: cs.takeWhile (· != '\n') := by
        rw [eq_append_of_cut? hstart, ← List.append_assoc, List.takeWhile_append_of_pos hfirst]
        exact ⟨before, rest.takeWhile (· != '\n'), rfl⟩
      exact cut?_eq_none_iff.1 (occurs_eq_false_iff.1 h) hinfix

open Segmentation in
/-- **What is looked at is put together from the outer segments**: a text on
whose first line no region opens is a sequence of segments in exactly one
way, and what is looked at are its outer segments, without their leaders
before a region and without end markers. -/
theorem visible_iff_segments (cs : List Char)
    (hline : occurs ignoreStart (cs.takeWhile (· != '\n')) = false) :
    (∃! s : Segmentation, s.IsProper ∧ s.text = cs) ∧
    ∀ s : Segmentation, s.IsProper → s.text = cs → ∀ out,
      visible cs = out ↔ ∃ kept, s.Keeps kept ∧ IsPurged ignoreEnd kept out := by
  refine ⟨existsUnique_segmentation cs, fun s hs htext out => ?_⟩
  have hkeeps : s.Keeps (outside cs) := hs.keeps_iff.2 (congrArg _ htext)
  rw [visible, outsideFromTop_eq_outside hline]
  constructor
  · intro hout
    exact ⟨outside cs, hkeeps, hout ▸ isPurged_without (by decide) (outside cs)⟩
  · intro hpurged
    obtain ⟨kept, hkept, hpurged⟩ := hpurged
    obtain rfl := (hs.keeps_iff.1 hkeeps).symm.trans (hs.keeps_iff.1 hkept)
    exact hpurged.eq_without ignoreEnd_standsApart

/-- A region with a start marker in it, outer text with two end markers in each
other, and a region that stays open. -/
def Segmentation.nested : Segmentation :=
  .region "x\n# ".toList " a REUSE-IgnoreStart b ".toList
    (.opened " y REUSE-IgnREUSE-IgnoreEndoreEnd\n-- ".toList " z".toList)

/-- An end marker that is left when another is taken out of it stays. -/
theorem visible_iff_segments_nested :
    visible Segmentation.nested.text = "x\n y REUSE-IgnoreEnd\n".toList := by
  have hproper : Segmentation.nested.IsProper :=
    ⟨by decide +kernel, by decide +kernel, by decide +kernel, by decide +kernel⟩
  have hfirst : IsBody "x\n# ".toList "x\n".toList := isBody_dropLeader "x\n# ".toList
  have hsecond : IsBody " y REUSE-IgnREUSE-IgnoreEndoreEnd\n-- ".toList
      " y REUSE-IgnREUSE-IgnoreEndoreEnd\n".toList := isBody_dropLeader _
  have hkeeps : Segmentation.nested.Keeps
      ("x\n".toList ++ " y REUSE-IgnREUSE-IgnoreEndoreEnd\n".toList) :=
    ⟨_, _, hfirst, hsecond, rfl⟩
  have hpurged : IsPurged ignoreEnd
      ("x\n".toList ++ " y REUSE-IgnREUSE-IgnoreEndoreEnd\n".toList)
      "x\n y REUSE-IgnoreEnd\n".toList :=
    ⟨"x\n y REUSE-Ign".toList, ["oreEnd\n".toList],
      List.forall_mem_cons.2 ⟨by decide +kernel, List.forall_mem_singleton.2 (by decide +kernel)⟩,
      by decide +kernel, by decide +kernel⟩
  exact ((visible_iff_segments Segmentation.nested.text (by decide +kernel)).2 _ hproper rfl _).2
    ⟨_, hkeeps, hpurged⟩

end LicenseAudit.Tag
