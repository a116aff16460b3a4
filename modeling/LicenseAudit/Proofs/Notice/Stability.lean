import LicenseAudit.Proofs.Notice.Announcement
import LicenseAudit.Proofs.Notice.RoundTrip

/-!
# Reading a stored line again

What is read from a stored line need not be what the line was made of.
`normalize_normalize_iff` says for which lines a second pass changes nothing:
those of **settled** notices.  Without years the holder must not announce a
notice.  With years the first of them must have too few digits to be read at
all, or every one must be read and the last must not find its end in the
holder.  A notice that is announced twice is not settled:
`normalize_announcedTwice`.
-/

namespace LicenseAudit

open Text

variable {c : Char} {cs rest : List Char}

/-- An announcement is taken off the start, and it is not empty. -/
theorem exists_append_of_dropAnnouncement? (h : dropAnnouncement? cs = some rest) :
    ∃ c front, cs = c :: front ++ rest := by
  obtain ⟨announcement, hcs, hannounces⟩ := exists_announces_of_dropAnnouncement? h
  obtain ⟨c, front, rfl⟩ := List.exists_cons_of_ne_nil hannounces.ne_nil
  exact ⟨c, front, hcs⟩

theorem dropAnnouncement_isSuffix (cs : List Char) : dropAnnouncement cs <:+ cs := by
  rw [dropAnnouncement]
  split
  · next hread =>
      obtain ⟨c, front, rfl⟩ := exists_append_of_dropAnnouncement? hread
      exact (List.dropWhile_suffix isBlank).trans (List.suffix_append (c :: front) _)
  · exact List.suffix_rfl

theorem isTrimmed_dropAnnouncement (h : IsTrimmed cs) : IsTrimmed (dropAnnouncement cs) := by
  apply h.of_isSuffix (dropAnnouncement_isSuffix cs)
  rw [dropAnnouncement]
  split
  · exact head?_trimLeft _
  · exact h.head

/-- The years that were read are bounded; nothing is taken off a text without
years, and no more years follow. -/
theorem takeYears_spec (cs : List Char) :
    (∀ r ∈ (takeYears cs).1, r.IsBounded) ∧ (takeYears cs).2 <:+ cs ∧
      ((takeYears cs).1 = [] → (takeYears cs).2 = cs) ∧
      takeYearRange? (dropGap (takeYears cs).2) = none := by
  fun_induction takeYears cs with
  | case1 cs hnone => exact ⟨List.forall_mem_nil _, List.suffix_rfl, fun _ => rfl, hnone⟩
  | case2 cs r rest hread years rest' heq ih =>
      rw [heq] at ih
      obtain ⟨hyears, hsuffix, -, hnone⟩ := ih
      obtain ⟨hr, hrest⟩ := isBounded_of_takeYearRange? hread
      refine ⟨List.forall_mem_cons.2 ⟨hr, hyears⟩, ?_, nofun, hnone⟩
      exact (hsuffix.trans hrest).trans (List.dropWhile_suffix isYearGap)

theorem dropGap_dropGap (cs : List Char) : dropGap (dropGap cs) = dropGap cs :=
  List.dropWhile_idempotent isYearGap cs

theorem head?_dropGap (cs : List Char) : ∀ c ∈ (dropGap cs).head?, isYearGap c = false := by
  intro c hc
  have hnot := List.head?_dropWhile_not isYearGap cs
  rw [dropGap] at hc
  rwa [Option.mem_def.1 hc] at hnot

/-- The holder after the years of a trimmed text is trimmed. -/
theorem isTrimmed_holder {years : List YearRange} (hcs : IsTrimmed cs)
    (hread : takeYears cs = (years, rest)) :
    IsTrimmed (if years.isEmpty then rest else dropGap rest) := by
  have hspec := takeYears_spec cs
  rw [hread] at hspec
  obtain ⟨-, hsuffix, hplain, -⟩ := hspec
  cases years with
  | nil =>
      obtain rfl := hplain rfl
      exact hcs
  | cons r rs =>
      apply hcs.of_isSuffix ((List.dropWhile_suffix isYearGap).trans hsuffix)
      intro c hc
      have hyear := head?_dropGap rest c hc
      simp only [isYearGap, Bool.or_eq_false_iff] at hyear
      exact hyear.1

namespace Notice

/-- The holder is what is left when there are no years, and what follows the
gap after the last year when there are; it needs no more trimming. -/
theorem parse_eq_of_takeYears {text : String} {years : List YearRange}
    (hread : takeYears (dropAnnouncement (trim text.toList)) = (years, rest)) :
    parse text = ⟨years, String.ofList (if years.isEmpty then rest else dropGap rest)⟩ := by
  have hbody := isTrimmed_dropAnnouncement (isTrimmed_trim text.toList)
  rw [parse, hread]
  dsimp only
  rw [trim_eq_self_iff.2 (isTrimmed_holder hbody hread)]

/-- What holds of every notice that was read. -/
structure IsRead (n : Notice) : Prop where
  bounded : ∀ r ∈ n.years, r.IsBounded
  trimmed : IsTrimmed n.holder.toList
  ungapped : n.years ≠ [] → dropGap n.holder.toList = n.holder.toList
  undated : takeYearRange? (dropGap n.holder.toList) = none

/-- A notice that was read has bounded years and the end of the text for its
holder. -/
theorem isRead_parse (text : String) : (parse text).IsRead ∧
    (parse text).holder.toList <:+ dropAnnouncement (trim text.toList) := by
  have hbody := isTrimmed_dropAnnouncement (isTrimmed_trim text.toList)
  have hspec := takeYears_spec (dropAnnouncement (trim text.toList))
  cases hread : takeYears (dropAnnouncement (trim text.toList)) with
  | mk years rest =>
      have htrimmed := isTrimmed_holder hbody hread
      rw [hread] at hspec
      obtain ⟨hyears, hsuffix, -, hnone⟩ := hspec
      rw [parse_eq_of_takeYears hread]
      cases years with
      | nil =>
          refine ⟨⟨List.forall_mem_nil _, ?_, fun hne => absurd rfl hne, ?_⟩, ?_⟩
          · simpa using htrimmed
          · simpa using hnone
          · simpa using hsuffix
      | cons r rs =>
          have hgap : dropGap rest <:+ rest := List.dropWhile_suffix isYearGap
          refine ⟨⟨hyears, ?_, fun _ => ?_, ?_⟩, ?_⟩
          · simpa using htrimmed
          · simpa using dropGap_dropGap rest
          · simpa [dropGap_dropGap] using hnone
          · simpa using hgap.trans hsuffix

end Notice

/-- A year before a dash takes the end that is read after the dash. -/
theorem takeYearRange?_render_of_takeRangeEnd? {r : YearRange} (h : r.IsProper)
    (hopen : r.ending = none) {ending : Option YearEnd}
    (hend : takeRangeEnd? cs = some (ending, rest)) :
    takeYearRange? (r.render.toList ++ cs) = some (⟨r.start, ending⟩, rest) := by
  have htail : r.tail = [] := by rw [YearRange.tail, hopen]
  rw [YearRange.toList_render, htail, List.append_nil, takeYearRange?, takeYear?_toDigits h.start]
  simp only [hend]

/-- A proper range is read, be it with another end. -/
theorem exists_takeYearRange?_render {r : YearRange} (h : r.IsProper)
    (hends : endsYear rest = true) :
    ∃ s more, takeYearRange? (r.render.toList ++ rest) = some (s, more) := by
  by_cases hopen : r.ending = none
  · cases hend : takeRangeEnd? rest with
    | none => exact ⟨r, rest, takeYearRange?_render h hends fun _ => hend⟩
    | some e => exact ⟨_, _, takeYearRange?_render_of_takeRangeEnd? h hopen hend⟩
  · exact ⟨r, rest, takeYearRange?_render h hends fun hnone => absurd hnone hopen⟩

theorem spaced_ne_cons (h : c ≠ ' ') (cs rest : List Char) : spaced cs ≠ c :: rest := by
  cases cs with
  | nil => exact nofun
  | cons d ds =>
      intro heq
      exact h (List.cons.inj heq).1.symm

theorem spaced_injective : Function.Injective spaced := by
  intro cs ds h
  cases cs <;> cases ds <;> simp_all [spaced]

/-- The ranges at the start of a text, each after a comma, and the holder that
follows them: what a second pass makes of it. -/
def reread (cs : List Char) : List Char :=
  listed (takeYears cs).1 ++ spaced (trim (dropGap (takeYears cs).2))

theorem reread_of_none (h : takeYearRange? (dropGap cs) = none) :
    reread cs = spaced (trim (dropGap cs)) := by
  rw [reread, takeYears_nil h]
  rfl

theorem reread_of_some {r : YearRange} (h : takeYearRange? (dropGap cs) = some (r, rest)) :
    reread cs = ',' :: ' ' :: (r.render.toList ++ reread rest) := by
  rw [reread, takeYears_cons h rfl, reread, listed_cons_append]

/-- What is written after a comma is a range; a holder is not. -/
theorem eq_dropGap_of_reread_eq_spaced (h : reread cs = spaced rest) :
    rest = trim (dropGap (takeYears cs).2) := by
  rw [reread] at h
  cases hyears : (takeYears cs).1 with
  | nil =>
      rw [hyears] at h
      exact spaced_injective h.symm
  | cons r rs =>
      rw [hyears] at h
      exact absurd h.symm (spaced_ne_cons (by decide) rest _)

/-- A proper range is written again as it was when it is read back. -/
theorem reread_proper {r : YearRange} (h : r.IsProper) {more : List Char}
    (hfollows : Follows r more) :
    reread (',' :: ' ' :: (r.render.toList ++ more)) =
      ',' :: ' ' :: (r.render.toList ++ reread more) := by
  apply reread_of_some
  rw [dropGap_comma_render]
  exact takeYearRange?_render h hfollows.ends hfollows.stays

/-- A range that is not proper is not written again. -/
theorem reread_improper {r : YearRange} (hb : r.IsBounded) (h : ¬ r.IsProper) {more : List Char}
    (hmore : ∀ c ∈ more.head?, c.isDigit = false) :
    reread (',' :: ' ' :: (r.render.toList ++ more)) ≠ ',' :: ' ' :: (r.render.toList ++ more) := by
  have hnone : takeYearRange? (dropGap (',' :: ' ' :: (r.render.toList ++ more))) = none := by
    rw [dropGap_comma_render]
    exact takeYearRange?_render_eq_none hb h hmore
  rw [reread_of_none hnone]
  exact spaced_ne_cons (by decide) _ _

/-- A dash that the holder starts with is taken for one of the last range, and
is lost or moved. -/
theorem reread_dash {r : YearRange} (h : r.IsProper) (hopen : r.ending = none)
    {ending : Option YearEnd} (hend : takeRangeEnd? cs = some (ending, rest)) :
    reread (',' :: ' ' :: (r.render.toList ++ spaced cs)) ≠
      ',' :: ' ' :: (r.render.toList ++ spaced cs) := by
  have hread : takeYearRange? (dropGap (',' :: ' ' :: (r.render.toList ++ spaced cs))) =
      some (⟨r.start, ending⟩, rest) := by
    rw [dropGap_comma_render]
    apply takeYearRange?_render_of_takeRangeEnd? h hopen
    rw [takeRangeEnd?_spaced, hend]
  rw [reread_of_some hread]
  intro heq
  have htail : r.tail = [] := by rw [YearRange.tail, hopen]
  simp only [List.cons.injEq, true_and, YearRange.toList_render, htail, List.append_nil,
    List.append_assoc, List.append_cancel_left_eq] at heq
  cases ending with
  | some e => exact spaced_ne_cons (by decide) cs _ heq.symm
  | none =>
      -- The text after the dash is too short for the holder.
      have hcs := eq_dropGap_of_reread_eq_spaced (heq : reread rest = spaced cs)
      obtain ⟨-, c, front, hfront⟩ := isBounded_of_takeRangeEnd? hend
      have hgap := length_dropGap_le (takeYears rest).2
      have hyears := (takeYears_spec rest).2.1.length_le
      have htrim := length_trim_le (dropGap (takeYears rest).2)
      have hlength := congrArg List.length hfront
      rw [List.length_append, List.length_cons] at hlength
      rw [← hcs] at htrim
      omega

theorem head?_listed_spaced (rs : List YearRange) (cs : List Char) :
    ∀ c ∈ (listed rs ++ spaced cs).head?, c.isDigit = false := by
  cases rs with
  | nil => cases cs <;> simp [listed, spaced]
  | cons s rs => simp [listed]

theorem reread_spaced (htrimmed : IsTrimmed cs) (hgap : dropGap cs = cs)
    (hnone : takeYearRange? cs = none) : reread (spaced cs) = spaced cs := by
  have hspaced : dropGap (spaced cs) = cs := by rw [dropGap_spaced, hgap]
  rw [reread_of_none (by rwa [hspaced]), hspaced, trim_eq_self_iff.2 htrimmed]

/-- The last range and the holder are written again as they are when the range
does not find its end in the holder. -/
theorem reread_last_iff {r : YearRange} (h : r.IsProper)
    (hholder : reread (spaced cs) = spaced cs) :
    reread (',' :: ' ' :: (r.render.toList ++ spaced cs)) =
        ',' :: ' ' :: (r.render.toList ++ spaced cs) ↔
      (r.ending = none → takeRangeEnd? cs = none) := by
  constructor
  · intro hsame hopen
    rw [Option.eq_none_iff_forall_ne_some]
    intro ⟨ending, rest⟩ hend
    exact reread_dash h hopen hend hsame
  · intro hstays
    have hfollows : Follows r (spaced cs) :=
      ⟨endsYear_spaced cs, fun hopen => (takeRangeEnd?_spaced cs).trans (hstays hopen)⟩
    rw [reread_proper h hfollows, hholder]

/-- Ranges and a holder are written again as they are when each range is read
and the last does not find its end in the holder. -/
theorem reread_listed_iff {rs : List YearRange} (hbounded : ∀ r ∈ rs, r.IsBounded)
    (hholder : reread (spaced cs) = spaced cs) :
    reread (listed rs ++ spaced cs) = listed rs ++ spaced cs ↔
      (∀ r ∈ rs, r.IsProper) ∧
        ∀ last ∈ rs.getLast?, last.ending = none → takeRangeEnd? cs = none := by
  induction rs with
  | nil => simpa [listed] using hholder
  | cons r rs ih =>
      obtain ⟨hr, hrs⟩ := List.forall_mem_cons.1 hbounded
      rw [listed_cons_append]
      by_cases hproper : r.IsProper
      · cases rs with
        | nil =>
            have hlast := reread_last_iff hproper hholder
            simpa [listed, hproper] using hlast
        | cons s rs =>
            rw [reread_proper hproper (follows_listed r s rs _)]
            simp only [List.cons.injEq, true_and, List.append_cancel_left_eq]
            rw [ih hrs]
            simp [hproper]
      · have hchanged := reread_improper hr hproper (head?_listed_spaced rs cs)
        simp [hchanged, hproper]

namespace Notice

/-- A second pass over a line that starts with a year writes what is read from
it. -/
theorem render_parse_eq_reread {text : String} {r : YearRange} {more : List Char}
    (htrimmed : IsTrimmed text.toList) (htext : text.toList = r.render.toList ++ more)
    (hproper : r.IsProper) (hends : endsYear more = true) :
    ',' :: ' ' :: (parse text).render.toList = reread (',' :: ' ' :: text.toList) := by
  obtain ⟨s, rest, hread⟩ := exists_takeYearRange?_render hproper hends
  have hplain : dropAnnouncement? text.toList = none := htext ▸ dropAnnouncement?_render r more
  have hyears : takeYears text.toList = (s :: (takeYears rest).1, (takeYears rest).2) := by
    apply takeYears_cons _ rfl
    rw [htext, dropGap_render_append, hread]
  have hreread : reread (',' :: ' ' :: text.toList) =
      ',' :: ' ' :: (s.render.toList ++ reread rest) := by
    apply reread_of_some
    rw [htext, dropGap_comma_render, hread]
  rw [hreread, parse_of_takeYears htrimmed hplain hyears, toList_render_cons, reread]
  simp

/-- A notice is **settled** when it is read back from its stored form, or its
stored form is read as a holder: without years, the holder announces no
notice; with years of which the first has four digits, all of them have, and a
dash at the start of the holder gives the last of them no end. -/
def IsSettled (n : Notice) : Prop :=
  match n.years with
  | [] => dropAnnouncement? n.holder.toList = none
  | first :: rest =>
    first.IsProper → (∀ r ∈ first :: rest, r.IsProper) ∧
      ∀ last ∈ (first :: rest).getLast?, last.ending = none → takeRangeEnd? n.holder.toList = none

/-- What is read back from its stored form is settled. -/
theorem IsLegible.isSettled {n : Notice} (h : n.IsLegible) : n.IsSettled := by
  obtain ⟨years, holder⟩ := n
  cases years with
  | nil => exact h.unannounced rfl
  | cons first rest => exact fun _ => ⟨h.proper, h.apart⟩

/-- A holder that announces a notice loses the announcement. -/
theorem render_parse_ne_of_announced {holder : String} (htrimmed : IsTrimmed holder.toList)
    (h : dropAnnouncement? holder.toList = some rest) : (parse holder).render ≠ holder := by
  obtain ⟨c, front, hfront⟩ := exists_append_of_dropAnnouncement? h
  have hholder := (isRead_parse holder).2.length_le
  rw [trim_eq_self_iff.2 htrimmed, dropAnnouncement, h] at hholder
  intro heq
  cases hyears : (parse holder).years with
  | nil =>
      have hrender : (parse holder).render = (parse holder).holder := by
        rw [← render_nil (parse holder).holder, ← hyears]
      have hshort := length_trimLeft_le rest
      rw [← hrender, heq, hfront, List.length_append, List.length_cons] at hholder
      simp only at hholder
      omega
  | cons r rs =>
      have hrender := toList_render_cons r rs (parse holder).holder
      rw [← hyears, heq] at hrender
      rw [hrender, dropAnnouncement?_render] at h
      cases h

/-- With a first range that is not read the whole line is read as a holder. -/
theorem render_parse_render_of_improper {first : YearRange} {rest : List YearRange}
    {holder : String} (h : IsRead ⟨first :: rest, holder⟩) (hproper : ¬ first.IsProper) :
    (parse (render ⟨first :: rest, holder⟩)).render = render ⟨first :: rest, holder⟩ := by
  have htrimmed := isTrimmed_render h.bounded h.trimmed
  have hplain := dropAnnouncement?_render first (listed rest ++ spaced holder.toList)
  have hnone : takeYearRange? (dropGap (render ⟨first :: rest, holder⟩).toList) = none := by
    rw [toList_render_cons, dropGap_render_append]
    apply takeYearRange?_render_eq_none (h.bounded first List.mem_cons_self) hproper
    exact head?_listed_spaced rest holder.toList
  rw [← toList_render_cons] at hplain
  rw [parse_of_takeYears htrimmed hplain (takeYears_nil hnone)]
  simp [render_nil, trim_eq_self_iff.2 htrimmed]

/-- With a first range that is read the line is written again as it is when the
others are read, and the last does not find its end in the holder. -/
theorem render_parse_render_iff_of_proper {first : YearRange} {rest : List YearRange}
    {holder : String} (h : IsRead ⟨first :: rest, holder⟩) (hproper : first.IsProper) :
    (parse (render ⟨first :: rest, holder⟩)).render = render ⟨first :: rest, holder⟩ ↔
      (∀ r ∈ first :: rest, r.IsProper) ∧
        ∀ last ∈ (first :: rest).getLast?, last.ending = none →
          takeRangeEnd? holder.toList = none := by
  have hends : endsYear (listed rest ++ spaced holder.toList) = true := by
    cases rest with
    | nil => exact endsYear_spaced holder.toList
    | cons s rs => rfl
  have hgap : dropGap holder.toList = holder.toList := h.ungapped (List.cons_ne_nil first rest)
  have hundated : takeYearRange? holder.toList = none := hgap ▸ h.undated
  have htext := toList_render_cons first rest holder
  have hpass := render_parse_eq_reread (isTrimmed_render h.bounded h.trimmed) htext hproper hends
  have hlisted : listed (first :: rest) ++ spaced holder.toList =
      ',' :: ' ' :: (render ⟨first :: rest, holder⟩).toList := by
    rw [htext, listed_cons_append]
  have hall := reread_listed_iff h.bounded (reread_spaced h.trimmed hgap hundated)
  rwa [hlisted, ← hpass, List.cons_inj_right, List.cons_inj_right, String.toList_inj] at hall

theorem render_parse_render_iff {n : Notice} (h : n.IsRead) :
    (parse n.render).render = n.render ↔ n.IsSettled := by
  obtain ⟨years, holder⟩ := n
  rw [IsSettled]
  cases years with
  | nil =>
      have hholder : IsTrimmed holder.toList := h.trimmed
      rw [render_nil]
      constructor
      · intro heq
        by_contra hsome
        obtain ⟨rest, hrest⟩ := Option.ne_none_iff_exists'.1 hsome
        exact render_parse_ne_of_announced hholder hrest heq
      · intro hplain
        rw [parse_of_takeYears hholder hplain (takeYears_nil h.undated)]
        simp [render_nil, trim_eq_self_iff.2 hholder]
  | cons first rest =>
      by_cases hproper : first.IsProper
      · rw [render_parse_render_iff_of_proper h hproper]
        exact ⟨fun hall _ => hall, fun hall => hall hproper⟩
      · exact ⟨fun _ hfirst => absurd hfirst hproper,
          fun _ => render_parse_render_of_improper h hproper⟩

/-- **A second pass**: the stored form of the notice in a text is its own
stored form if and only if the notice is settled. -/
theorem normalize_normalize_iff (text : String) :
    normalize (normalize text) = normalize text ↔ (parse text).IsSettled :=
  render_parse_render_iff (isRead_parse text).1

/-- Of two announcements the second is kept, and lost on a second pass. -/
theorem normalize_announcedTwice :
    normalize "© © 2020 Jane Doe" = "© 2020 Jane Doe" ∧
      normalize (normalize "© © 2020 Jane Doe") ≠ normalize "© © 2020 Jane Doe" := by
  decide +kernel

end Notice

end LicenseAudit
