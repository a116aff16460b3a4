import LicenseAudit.Proofs.Notice.Stability
import LicenseAudit.Proofs.Notice.Token

/-!
# Nothing but notation is lost

Reading a notice takes an announcement and year tokens off its text, with the
gaps around them, and keeps the rest.  `parse_decomposes` puts the text
together again from these parts: the announcement is the longest that the text
starts with, there is one year token for each year and in their order, each the
longest at its place, and the holder is what follows.  No year token is left at
the start of the holder.
-/

namespace LicenseAudit

open Text

/-- A text **lists** ranges of years before a holder: a year token for each, the
longest at its place, and a gap before each token and before the holder. -/
inductive ListsYears (holder : List Char) : List YearRange → List Char → Prop
  | holder {gap : List Char} (hgap : ∀ c ∈ gap, isYearGap c = true) :
      ListsYears holder [] (gap ++ holder)
  | year {gap token rest : List Char} {r : YearRange} {rs : List YearRange}
      (hgap : ∀ c ∈ gap, isYearGap c = true) (htoken : IsYearToken r token)
      (hlongest : IsLongest YearPattern token rest) (hrest : ListsYears holder rs rest) :
      ListsYears holder (r :: rs) (gap ++ (token ++ rest))

theorem exists_append_dropGap (cs : List Char) :
    ∃ gap, (∀ c ∈ gap, isYearGap c = true) ∧ cs = gap ++ dropGap cs :=
  ⟨cs.takeWhile isYearGap, fun _ => List.mem_takeWhile_imp, List.takeWhile_append_dropWhile.symm⟩

/-- A gap at the start of a text makes no difference to the years and to what
follows the gap after them. -/
theorem takeYears_congr {a b : List Char} (h : dropGap a = dropGap b) :
    (takeYears a).1 = (takeYears b).1 ∧ dropGap (takeYears a).2 = dropGap (takeYears b).2 := by
  cases hread : takeYearRange? (dropGap a) with
  | none =>
      rw [takeYears_nil hread, takeYears_nil (h ▸ hread)]
      exact ⟨rfl, h⟩
  | some pair =>
      obtain ⟨r, rest⟩ := pair
      have hread' : takeYearRange? (dropGap b) = some (r, rest) := h ▸ hread
      rw [takeYears_cons hread rfl, takeYears_cons hread' rfl]
      exact ⟨rfl, rfl⟩

/-- The years that are read are listed before what follows them. -/
theorem listsYears_takeYears (cs : List Char) :
    ListsYears (dropGap (takeYears cs).2) (takeYears cs).1 cs := by
  induction hn : cs.length using Nat.strongRecOn generalizing cs with
  | ind n ih =>
      subst hn
      obtain ⟨gap, hgap, hcs⟩ := exists_append_dropGap cs
      cases hread : takeYearRange? (dropGap cs) with
      | none =>
          rw [takeYears_nil hread]
          have hholder : ListsYears (dropGap cs) [] (gap ++ dropGap cs) := .holder hgap
          rwa [← hcs] at hholder
      | some pair =>
          obtain ⟨r, more⟩ := pair
          obtain ⟨token, blanks, rest, htoken, hmore, hblanks, hyear, hlongest⟩ :=
            exists_isLongest_of_takeYearRange? hread
          -- The blanks that the reader leaves out belong to the next gap or to the token.
          have hsame : dropGap more = dropGap rest := by
            rw [hmore]
            exact dropGap_append_of_gap (fun c hc => by simp [isYearGap, hblanks c hc]) rest
          obtain ⟨hyears, hholder⟩ := takeYears_congr hsame
          have hshort : rest.length < cs.length := by
            have hgapped := length_dropGap_le cs
            have hrest := length_lt_of_takeYearRange? hread
            rw [hmore, List.length_append] at hrest
            omega
          rw [takeYears_cons hread rfl, hyears, hholder]
          have hlisted := ListsYears.year hgap hyear hlongest (ih _ hshort rest rfl)
          rwa [← htoken, ← hcs] at hlisted

namespace Notice

/-- **Nothing but notation is lost**: the trimmed text of a notice is the
longest announcement at its start, if there is one, and after it one year token
for each year, in their order and with nothing but gaps around them, and the
holder.  Without years the holder is all that follows the announcement.  No year
token is left at the start of the holder. -/
theorem parse_decomposes (text : String) :
    (∃ announcement body, trim text.toList = announcement ++ body ∧
      IsFound AnnouncementPattern announcement body ∧
      ListsYears (parse text).holder.toList (parse text).years body ∧
      ((parse text).years = [] → body = (parse text).holder.toList)) ∧
    ∀ token rest, token ++ rest = dropGap (parse text).holder.toList →
      ¬ YearPattern token rest := by
  constructor
  · obtain ⟨announcement, hsplit, hfound⟩ := exists_isFound_dropAnnouncement (trim text.toList)
    refine ⟨announcement, dropAnnouncement (trim text.toList), hsplit, hfound, ?_⟩
    have hlists := listsYears_takeYears (dropAnnouncement (trim text.toList))
    have hplain := (takeYears_spec (dropAnnouncement (trim text.toList))).2.2.1
    cases hread : takeYears (dropAnnouncement (trim text.toList)) with
    | mk years rest =>
        rw [hread] at hlists hplain
        rw [parse_eq_of_takeYears hread]
        cases years with
        | nil =>
            obtain rfl := hplain rfl
            simp only [List.isEmpty_nil, if_true, String.toList_ofList, forall_const, and_true]
            exact .holder (List.forall_mem_nil _)
        | cons r rs => simpa using hlists
  · intro token rest hsplit hpattern
    have hundated := (isRead_parse text).1.undated
    rw [← hsplit] at hundated
    exact takeYearRange?_ne_none hpattern hundated

/-- A dash without an end belongs to its year, and a year that runs into a word
is left to the holder. -/
theorem parse_decomposes_ordinal :
    let text := "Copyright © 2015 -, 2017--now 2019th Floor"
    (parse text).years = [⟨2015, none⟩, ⟨2017, some (.word "now")⟩] ∧
      (∃ announcement body, trim text.toList = announcement ++ body ∧
        IsFound AnnouncementPattern announcement body ∧
        ListsYears "2019th Floor".toList (parse text).years body) ∧
      "2019".toList ++ "th Floor".toList = dropGap (parse text).holder.toList ∧
      ¬ YearPattern "2019".toList "th Floor".toList := by
  intro text
  have hyears : (parse text).years = [⟨2015, none⟩, ⟨2017, some (.word "now")⟩] := by
    decide +kernel
  have hholder : (parse text).holder = "2019th Floor" := by decide +kernel
  have hstart : "2019".toList ++ "th Floor".toList = dropGap (parse text).holder.toList := by
    rw [hholder]
    decide +kernel
  obtain ⟨⟨announcement, body, hsplit, hfound, hlists, -⟩, hstops⟩ := parse_decomposes text
  rw [hholder] at hlists
  exact ⟨hyears, ⟨announcement, body, hsplit, hfound, hlists⟩, hstart, hstops _ _ hstart⟩

end Notice

end LicenseAudit
