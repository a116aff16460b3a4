import LicenseAudit.Proofs.Notice.Year
import LicenseAudit.Proofs.Text.Blank

/-!
# Year tokens

A **year token** is a year of four digits, alone or with a dash and perhaps an
end after it.  Where one starts a text there may be several, since the dash, the
end and the blanks after the dash may be left out; the one that is read is the
longest before a gap or the end of the text.

`takeYearRange?` reads that one, with the range that it stands for
(`exists_isLongest_of_takeYearRange?`), and leaves a text alone only when no
year token starts it (`takeYearRange?_ne_none`).
-/

namespace LicenseAudit

open Text

variable {cs rest more tail : List Char} {n : Nat} {ending : Option YearEnd}

/-- Four digits and their number. -/
structure IsNumeral (n : Nat) (ds : List Char) : Prop where
  length : ds.length = 4
  digits : ∀ d ∈ ds, d.isDigit = true
  value : Nat.ofDigitChars 10 ds 0 = n

/-- The end of a range as it may be written, and the empty text for none. -/
inductive IsEnding : Option YearEnd → List Char → Prop
  | empty : IsEnding none []
  | year {n : Nat} {ds : List Char} (h : IsNumeral n ds) : IsEnding (some (.year n)) ds
  | word {w : String} (h : w ∈ openWords) : IsEnding (some (.word w)) w.toList

/-- What may be written after the first year of a range: nothing, or a dash,
perhaps with an end, and blanks around the dash. -/
inductive IsRangeTail : Option YearEnd → List Char → Prop
  | empty : IsRangeTail none []
  | dash {ending : Option YearEnd} {before dash after written : List Char}
      (hbefore : ∀ c ∈ before, isBlank c = true) (hdash : dash ∈ dashes)
      (hafter : ∀ c ∈ after, isBlank c = true) (hwritten : IsEnding ending written) :
      IsRangeTail ending (before ++ (dash ++ (after ++ written)))

/-- A **year token** of a range: the digits of its first year, and its end. -/
def IsYearToken (r : YearRange) (token : List Char) : Prop :=
  ∃ ds tail, token = ds ++ tail ∧ IsNumeral r.start ds ∧ IsRangeTail r.ending tail

/-- A year token before a gap or the end of the text. -/
def YearPattern (token rest : List Char) : Prop :=
  (∃ r, IsYearToken r token) ∧ endsYear rest = true

theorem takeYear?_iff : takeYear? cs = some (n, rest) ↔ ∃ ds, IsNumeral n ds ∧ cs = ds ++ rest := by
  rw [takeYear?_eq_some_iff]
  constructor
  · rintro ⟨ds, hlength, hdigits, hcs, hvalue⟩
    exact ⟨ds, ⟨hlength, hdigits, hvalue⟩, hcs⟩
  · rintro ⟨ds, ⟨hlength, hdigits, hvalue⟩, hcs⟩
    exact ⟨ds, hlength, hdigits, hcs, hvalue⟩

/-- An end starts with a digit or a letter. -/
theorem IsEnding.exists_cons {e : YearEnd} {written : List Char}
    (h : IsEnding (some e) written) :
    ∃ c cs, written = c :: cs ∧ isBlank c = false ∧ c ≠ '-' := by
  cases h with
  | year h =>
      obtain ⟨c, cs, rfl⟩ := List.exists_cons_of_length_eq_add_one h.length
      have hc : c.isDigit = true := h.digits c List.mem_cons_self
      exact ⟨c, cs, rfl, isBlank_eq_false_of_isDigit hc, ne_of_isDigit hc rfl⟩
  | word h =>
      have hall : ∀ w ∈ openWords, ∃ c cs, w.toList = c :: cs ∧ isBlank c = false ∧ c ≠ '-' := by
        simp [openWords, isBlank]
      exact hall _ h

/-- An end is read as it is written. -/
theorem takeYearEnd?_eq_some_iff {e : YearEnd} :
    takeYearEnd? cs = some (e, rest) ↔
      ∃ written, IsEnding (some e) written ∧ cs = written ++ rest := by
  constructor
  · intro h
    rw [takeYearEnd?] at h
    split at h
    · next hyear =>
        cases h
        obtain ⟨ds, hds, hcs⟩ := takeYear?_iff.1 hyear
        exact ⟨ds, .year hds, hcs⟩
    · obtain ⟨w, hw, hread⟩ := List.exists_of_findSome?_eq_some h
      obtain ⟨rest', hdrop, hpair⟩ := Option.map_eq_some_iff.1 hread
      cases hpair
      exact ⟨w.toList, .word hw, dropStart?_eq_some_iff.1 hdrop⟩
  · rintro ⟨written, hwritten, rfl⟩
    cases hwritten with
    | year h => rw [takeYearEnd?, takeYear?_iff.2 ⟨written, h, rfl⟩]
    | word h =>
        have hproper : (YearEnd.word _).IsProper := h
        exact takeYearEnd?_written hproper rest

theorem trimLeft_blanks_ending {e : YearEnd} {written blanks : List Char}
    (h : IsEnding (some e) written) (hblanks : ∀ c ∈ blanks, isBlank c = true) :
    trimLeft (blanks ++ (written ++ rest)) = written ++ rest := by
  obtain ⟨c, cs, rfl, hc, -⟩ := h.exists_cons
  rw [trimLeft, List.dropWhile_append_of_pos hblanks]
  exact List.dropWhile_cons_of_neg (by simp [hc])

/-- What follows a dash and the blanks after it starts with no dash. -/
theorem head?_ne_dash {written blanks : List Char} (h : IsEnding ending written)
    (hblanks : ∀ c ∈ blanks, isBlank c = true) (hends : endsYear rest = true) :
    ∀ c ∈ (blanks ++ (written ++ rest)).head?, c ≠ '-' := by
  rintro c hc rfl
  cases blanks with
  | cons b blanks =>
      obtain rfl : b = '-' := Option.some.inj hc
      cases hblanks '-' List.mem_cons_self
  | nil =>
      cases ending with
      | some e =>
          obtain ⟨d, ds, rfl, -, hd⟩ := h.exists_cons
          exact hd (Option.some.inj hc)
      | none =>
          cases h
          cases rest with
          | nil => cases hc
          | cons d rest =>
              obtain rfl : d = '-' := Option.some.inj hc
              cases hends

/-- A dash in a written range is found, whichever it is. -/
theorem dropDash?_append {dash : List Char} (h : dash ∈ dashes)
    (hmore : ∀ c ∈ more.head?, c ≠ '-') :
    trimLeft (dash ++ more) = dash ++ more ∧ dropDash? (dash ++ more) = some more := by
  simp only [dashes, List.mem_cons, List.not_mem_nil, or_false] at h
  rcases h with rfl | rfl | rfl
  · exact ⟨rfl, rfl⟩
  · refine ⟨rfl, ?_⟩
    cases more with
    | nil => rfl
    | cons c more =>
        have hc : c ≠ '-' := hmore c rfl
        simp [dropDash?, hc]
  · exact ⟨rfl, rfl⟩

/-- What follows the dash of a range: blanks, an end or none, and then a text
that ends the year. -/
structure EndsRange (ending : Option YearEnd) (body rest : List Char) : Prop where
  ends : endsYear rest = true
  written : ∃ blanks written, body = blanks ++ (written ++ rest) ∧ IsEnding ending written ∧
    ∀ c ∈ blanks, isBlank c = true

theorem endsRange_some_iff {e : YearEnd} :
    EndsRange (some e) cs rest ↔
      takeYearEnd? (trimLeft cs) = some (e, rest) ∧ endsYear rest = true := by
  constructor
  · rintro ⟨hends, blanks, written, rfl, hwritten, hblanks⟩
    rw [trimLeft_blanks_ending hwritten hblanks]
    exact ⟨takeYearEnd?_eq_some_iff.2 ⟨written, hwritten, rfl⟩, hends⟩
  · rintro ⟨hread, hends⟩
    obtain ⟨written, hwritten, htrim⟩ := takeYearEnd?_eq_some_iff.1 hread
    obtain ⟨blanks, hblanks, hcs⟩ := exists_append_trimLeft cs
    exact ⟨hends, blanks, written, by rw [← htrim]; exact hcs, hwritten, hblanks⟩

theorem endsRange_none_iff :
    EndsRange none cs rest ↔
      endsYear rest = true ∧ ∃ blanks, cs = blanks ++ rest ∧ ∀ c ∈ blanks, isBlank c = true := by
  constructor
  · rintro ⟨hends, blanks, written, hcs, hwritten, hblanks⟩
    cases hwritten
    exact ⟨hends, blanks, hcs, hblanks⟩
  · rintro ⟨hends, blanks, hcs, hblanks⟩
    exact ⟨hends, blanks, [], hcs, .empty, hblanks⟩

/-- A text that ends a year does so after blanks as well. -/
theorem EndsRange.endsYear_of_none (h : EndsRange none cs rest) : endsYear cs = true := by
  obtain ⟨hends, blanks, rfl, hblanks⟩ := endsRange_none_iff.1 h
  cases blanks with
  | nil => exact hends
  | cons b blanks =>
      have hb := hblanks b List.mem_cons_self
      simp [endsYear, isYearGap, hb]

/-- After the first year of a range there is nothing, or a dash is found with
what ends the range. -/
theorem IsRangeTail.cases_dash (h : IsRangeTail ending tail) (hends : endsYear rest = true) :
    ending = none ∧ tail = [] ∨
      ∃ body, dropDash? (trimLeft (tail ++ rest)) = some body ∧ EndsRange ending body rest := by
  cases h with
  | empty => exact .inl ⟨rfl, rfl⟩
  | @dash _ before dash after written hbefore hdash hafter hwritten =>
      have hhead := head?_ne_dash hwritten hafter hends
      obtain ⟨htrim, hdrop⟩ := dropDash?_append hdash hhead
      refine .inr ⟨_, ?_, hends, after, written, rfl, hwritten, hafter⟩
      simp only [List.append_assoc]
      rw [trimLeft, List.dropWhile_append_of_pos hbefore, ← trimLeft, htrim, hdrop]

theorem EndsRange.exists_tail {body : List Char} (h : EndsRange ending body rest)
    (hdash : dropDash? (trimLeft cs) = some body) :
    ∃ tail, cs = tail ++ rest ∧ IsRangeTail ending tail := by
  obtain ⟨-, after, written, rfl, hwritten, hafter⟩ := h
  obtain ⟨dash, hmem, htrim⟩ := exists_append_of_dropDash? hdash
  obtain ⟨before, hbefore, hcs⟩ := exists_append_trimLeft cs
  refine ⟨_, ?_, .dash hbefore hmem hafter hwritten⟩
  rw [hcs, htrim]
  simp only [List.append_assoc]

/-- A blank after a dash without an end belongs to the token or to what
follows it. -/
theorem endsRange_none_cons_iff {c : Char} :
    EndsRange none (c :: cs) rest ↔
      endsYear (c :: cs) = true ∧ rest = c :: cs ∨ isBlank c = true ∧ EndsRange none cs rest := by
  constructor
  · intro h
    obtain ⟨hends, blanks, hcs, hblanks⟩ := endsRange_none_iff.1 h
    cases blanks with
    | nil =>
        obtain rfl : c :: cs = rest := hcs
        exact .inl ⟨hends, rfl⟩
    | cons b blanks =>
        obtain ⟨rfl, rfl⟩ := List.cons.inj hcs
        obtain ⟨hc, hblanks⟩ := List.forall_mem_cons.1 hblanks
        exact .inr ⟨hc, endsRange_none_iff.2 ⟨hends, blanks, rfl, hblanks⟩⟩
  · rintro (⟨hends, rfl⟩ | ⟨hc, h⟩)
    · exact endsRange_none_iff.2 ⟨hends, [], rfl, List.forall_mem_nil _⟩
    · obtain ⟨hends, blanks, rfl, hblanks⟩ := endsRange_none_iff.1 h
      exact endsRange_none_iff.2 ⟨hends, c :: blanks, rfl, List.forall_mem_cons.2 ⟨hc, hblanks⟩⟩

/-- Of the blanks after a dash without an end, all belong to the token that can
before the end of the year. -/
theorem exists_shortest_of_endsYear (h : endsYear cs = true) :
    ∃ rest, EndsRange none cs rest ∧
      ∀ rest', EndsRange none cs rest' → rest.length ≤ rest'.length := by
  induction cs with
  | nil =>
      refine ⟨[], endsRange_none_iff.2 ⟨rfl, [], rfl, List.forall_mem_nil _⟩, ?_⟩
      exact fun _ _ => Nat.zero_le _
  | cons c cs ih =>
      by_cases hmore : isBlank c = true ∧ endsYear cs = true
      · obtain ⟨hc, hcs⟩ := hmore
        obtain ⟨rest, hrest, hshort⟩ := ih hcs
        refine ⟨rest, endsRange_none_cons_iff.2 (.inr ⟨hc, hrest⟩), fun rest' hrest' => ?_⟩
        rcases endsRange_none_cons_iff.1 hrest' with ⟨-, rfl⟩ | ⟨-, hrest'⟩
        · obtain ⟨-, blanks, rfl, -⟩ := endsRange_none_iff.1 hrest
          simp only [List.length_cons, List.length_append]
          omega
        · exact hshort rest' hrest'
      · -- The first character is no blank, or the last one before the end.
        refine ⟨c :: cs, endsRange_none_cons_iff.2 (.inl ⟨h, rfl⟩), fun rest' hrest' => ?_⟩
        rcases endsRange_none_cons_iff.1 hrest' with ⟨-, rfl⟩ | ⟨hc, hrest'⟩
        · exact le_rfl
        · exact absurd ⟨hc, hrest'.endsYear_of_none⟩ hmore

/-- Without an end more is left than with one. -/
theorem EndsRange.length_le {e : YearEnd} {rest' : List Char} (h : EndsRange (some e) cs rest)
    (h' : EndsRange none cs rest') : rest.length ≤ rest'.length := by
  obtain ⟨hread, -⟩ := endsRange_some_iff.1 h
  obtain ⟨-, blanks, rfl, hblanks⟩ := endsRange_none_iff.1 h'
  have htrim : trimLeft (blanks ++ rest') = trimLeft rest' := List.dropWhile_append_of_pos hblanks
  calc rest.length ≤ (trimLeft (blanks ++ rest')).length := length_le_of_takeYearEnd? hread
    _ = (trimLeft rest').length := by rw [htrim]
    _ ≤ rest'.length := length_trimLeft_le rest'

/-- After a dash the end that is there is read; without one, all is left. -/
theorem takeRangeEnd?_of_dash {body : List Char} (hdash : dropDash? (trimLeft cs) = some body) :
    (∃ e rest, takeRangeEnd? cs = some (some e, rest) ∧ EndsRange (some e) body rest) ∨
      (∀ e rest, ¬ EndsRange (some e) body rest) ∧
        takeRangeEnd? cs = if endsYear body then some (none, body) else none := by
  rw [takeRangeEnd?, hdash]
  cases hread : takeYearEnd? (trimLeft body) with
  | none =>
      refine .inr ⟨fun e rest hrange => ?_, by simp only [hread]⟩
      rw [(endsRange_some_iff.1 hrange).1] at hread
      cases hread
  | some pair =>
      obtain ⟨e, rest⟩ := pair
      cases hends : endsYear rest with
      | true => exact .inl ⟨e, rest, by simp [hread, hends], endsRange_some_iff.2 ⟨hread, hends⟩⟩
      | false =>
          refine .inr ⟨fun e' rest' hrange => ?_, by simp [hread, hends]⟩
          obtain ⟨hread', hends'⟩ := endsRange_some_iff.1 hrange
          rw [hread] at hread'
          cases hread'
          rw [hends] at hends'
          cases hends'

theorem exists_dropDash?_of_takeRangeEnd? (h : takeRangeEnd? cs = some (ending, more)) :
    ∃ body, dropDash? (trimLeft cs) = some body := by
  cases hdash : dropDash? (trimLeft cs) with
  | none => simp [takeRangeEnd?, hdash] at h
  | some body => exact ⟨body, rfl⟩

/-- The rest of a range is read as the longest one that the text allows. -/
theorem exists_shortest_of_takeRangeEnd? {body : List Char}
    (hdash : dropDash? (trimLeft cs) = some body) (h : takeRangeEnd? cs = some (ending, more)) :
    ∃ blanks rest, more = blanks ++ rest ∧ (∀ c ∈ blanks, isBlank c = true) ∧
      EndsRange ending body rest ∧
      ∀ ending' rest', EndsRange ending' body rest' → rest.length ≤ rest'.length := by
  rcases takeRangeEnd?_of_dash hdash with ⟨e, rest, hread, hrange⟩ | ⟨hopen, hread⟩
  · rw [h] at hread
    cases hread
    refine ⟨[], more, rfl, List.forall_mem_nil _, hrange, fun ending' rest' hrange' => ?_⟩
    cases ending' with
    | none => exact hrange.length_le hrange'
    | some e' =>
        have hsame := (endsRange_some_iff.1 hrange').1
        rw [(endsRange_some_iff.1 hrange).1] at hsame
        cases hsame
        exact le_rfl
  · rw [h] at hread
    cases hends : endsYear body with
    | false => simp [hends] at hread
    | true =>
        rw [hends, if_pos rfl] at hread
        cases hread
        obtain ⟨rest, hrest, hshort⟩ := exists_shortest_of_endsYear hends
        obtain ⟨-, blanks, hbody, hblanks⟩ := endsRange_none_iff.1 hrest
        refine ⟨blanks, rest, hbody, hblanks, hrest, fun ending' rest' hrange' => ?_⟩
        cases ending' with
        | none => exact hshort rest' hrange'
        | some e => exact absurd hrange' (hopen e rest')

/-- A range is read where there is one. -/
theorem takeRangeEnd?_ne_none {body : List Char} (hdash : dropDash? (trimLeft cs) = some body)
    (h : EndsRange ending body rest) : takeRangeEnd? cs ≠ none := by
  rcases takeRangeEnd?_of_dash hdash with ⟨e, rest', hread, -⟩ | ⟨hopen, hread⟩
  · rw [hread]
    exact Option.some_ne_none _
  · cases ending with
    | none =>
        rw [hread, if_pos h.endsYear_of_none]
        exact Option.some_ne_none _
    | some e => exact absurd h (hopen e rest)

/-- The range of a year token is read from its digits on. -/
theorem exists_tail_of_yearPattern {token : List Char} (h : YearPattern token rest) :
    ∃ n ending tail, takeYear? (token ++ rest) = some (n, tail ++ rest) ∧
      IsRangeTail ending tail ∧ endsYear rest = true := by
  obtain ⟨⟨r, ds, tail, rfl, hstart, htail⟩, hends⟩ := h
  refine ⟨r.start, r.ending, tail, takeYear?_iff.2 ⟨ds, hstart, ?_⟩, htail, hends⟩
  exact List.append_assoc ds tail rest

/-- Digits and a tail are the longest year token when the tail is the longest
that their year may have. -/
theorem isLongest_append_tail {ds : List Char} (hds : IsNumeral n ds)
    (htail : IsRangeTail ending tail) (hends : endsYear rest = true)
    (hshort : ∀ body ending' rest', dropDash? (trimLeft (tail ++ rest)) = some body →
      EndsRange ending' body rest' → rest.length ≤ rest'.length) :
    IsYearToken ⟨n, ending⟩ (ds ++ tail) ∧ IsLongest YearPattern (ds ++ tail) rest := by
  have htoken : IsYearToken ⟨n, ending⟩ (ds ++ tail) := ⟨ds, tail, rfl, hds, htail⟩
  refine ⟨htoken, isLongest_of_length_le ⟨⟨_, htoken⟩, hends⟩ fun found' rest' hsplit hfound => ?_⟩
  -- Another token starts with the same digits.
  obtain ⟨n', ending', tail', hyear', htail', hends'⟩ := exists_tail_of_yearPattern hfound
  have hyear : takeYear? (found' ++ rest') = some (n, tail ++ rest) :=
    takeYear?_iff.2 ⟨ds, hds, by rw [hsplit, List.append_assoc]⟩
  rw [hyear] at hyear'
  obtain ⟨-, hafter⟩ := Prod.mk.inj (Option.some.inj hyear')
  rcases htail'.cases_dash hends' with ⟨-, rfl⟩ | ⟨body, hdash, hrange⟩
  · rw [List.nil_append] at hafter
    exact hafter ▸ (List.suffix_append tail rest).length_le
  · rw [← hafter] at hdash
    exact hshort body ending' rest' hdash hrange

/-- **The longest year token is read**: a range that is read is that of the
longest year token at the start of the text, and of what follows the token
blanks at most are left out. -/
theorem exists_isLongest_of_takeYearRange? {r : YearRange}
    (h : takeYearRange? cs = some (r, more)) :
    ∃ token blanks rest, cs = token ++ rest ∧ more = blanks ++ rest ∧
      (∀ c ∈ blanks, isBlank c = true) ∧ IsYearToken r token ∧
      IsLongest YearPattern token rest := by
  rw [takeYearRange?] at h
  cases hyear : takeYear? cs with
  | none =>
      rw [hyear] at h
      cases h
  | some pair =>
      obtain ⟨n, after⟩ := pair
      obtain ⟨ds, hds, rfl⟩ := takeYear?_iff.1 hyear
      simp only [hyear] at h
      cases hend : takeRangeEnd? after with
      | some pair =>
          obtain ⟨ending, left⟩ := pair
          obtain ⟨body, hdash⟩ := exists_dropDash?_of_takeRangeEnd? hend
          simp only [hend, Option.some.injEq, Prod.mk.injEq] at h
          obtain ⟨rfl, rfl⟩ := h
          obtain ⟨blanks, rest, hmore, hblanks, hrange, hshort⟩ :=
            exists_shortest_of_takeRangeEnd? hdash hend
          obtain ⟨tail, rfl, htail⟩ := hrange.exists_tail hdash
          refine ⟨ds ++ tail, blanks, rest, (List.append_assoc ..).symm, hmore, hblanks, ?_⟩
          refine isLongest_append_tail hds htail hrange.ends fun body' ending' rest' hdash' => ?_
          obtain rfl := Option.some.inj (hdash.symm.trans hdash')
          exact hshort ending' rest'
      | none =>
          simp only [hend, Option.ite_none_right_eq_some, Option.some.injEq, Prod.mk.injEq] at h
          obtain ⟨hends, rfl, rfl⟩ := h
          refine ⟨ds ++ [], [], after, by rw [List.append_nil], rfl, List.forall_mem_nil _, ?_⟩
          refine isLongest_append_tail hds .empty hends fun body ending' rest' hdash hrange => ?_
          exact absurd hend (takeRangeEnd?_ne_none hdash hrange)

/-- Where a year token starts the text a range is read. -/
theorem takeYearRange?_ne_none {token : List Char} (h : YearPattern token rest) :
    takeYearRange? (token ++ rest) ≠ none := by
  obtain ⟨n, ending, tail, hyear, htail, hends⟩ := exists_tail_of_yearPattern h
  rw [takeYearRange?, hyear]
  dsimp only
  cases hend : takeRangeEnd? (tail ++ rest) with
  | some pair => exact Option.some_ne_none _
  | none =>
      rcases htail.cases_dash hends with ⟨-, rfl⟩ | ⟨body, hdash, hrange⟩
      · rw [List.nil_append, if_pos hends]
        exact Option.some_ne_none _
      · exact absurd hend (takeRangeEnd?_ne_none hdash hrange)

end LicenseAudit
