import LicenseAudit.Notice
import LicenseAudit.Proofs.Text.Blank
import LicenseAudit.Proofs.Text.Search

/-!
# The announcement of a notice

A notice may be announced by the word, a sign, or both.  What is taken off the
start of a text is the longest announcement there with the blanks after it, and
nothing when the text announces no notice
(`exists_isFound_dropAnnouncement`).
-/

namespace LicenseAudit

open Text

variable {cs rest : List Char}

/-- The signs that stand for the word. -/
def copyrightSigns : List (List Char) :=
  [['©'], ['(', 'C', ')'], ['(', 'c', ')']]

/-- A text **announces** a notice before the text that follows: the word and a
sign, perhaps with a colon; the word and a colon; the word alone, before a blank
or the end of the text; or a sign alone. -/
inductive Announces : List Char → List Char → Prop
  | signed {gap sign colon rest : List Char} (hgap : ∀ c ∈ gap, isBlank c = true)
      (hsign : sign ∈ copyrightSigns) (hcolon : colon = [] ∨ colon = [':']) :
      Announces (copyrightWord ++ (gap ++ (sign ++ colon))) rest
  | colon {rest : List Char} : Announces (copyrightWord ++ [':']) rest
  | word {rest : List Char} (h : ∀ c ∈ rest.head?, isBlank c = true) : Announces copyrightWord rest
  | sign {sign rest : List Char} (hsign : sign ∈ copyrightSigns) : Announces sign rest

/-- An announcement and blanks after it. -/
def AnnouncementPattern (found rest : List Char) : Prop :=
  ∃ announcement blanks, found = announcement ++ blanks ∧ (∀ c ∈ blanks, isBlank c = true) ∧
    Announces announcement (blanks ++ rest)

theorem dropSign?_eq_some_iff :
    dropSign? cs = some rest ↔ ∃ sign ∈ copyrightSigns, cs = sign ++ rest := by
  constructor
  · intro h
    unfold dropSign? at h
    split at h <;> cases h
    · exact ⟨['©'], by simp [copyrightSigns], rfl⟩
    · exact ⟨['(', 'C', ')'], by simp [copyrightSigns], rfl⟩
    · exact ⟨['(', 'c', ')'], by simp [copyrightSigns], rfl⟩
  · rintro ⟨sign, hsign, rfl⟩
    simp only [copyrightSigns, List.mem_cons, List.not_mem_nil, or_false] at hsign
    rcases hsign with rfl | rfl | rfl <;> rfl

/-- A sign starts with no blank. -/
theorem trimLeft_sign_append {sign : List Char} (h : sign ∈ copyrightSigns) (rest : List Char) :
    trimLeft (sign ++ rest) = sign ++ rest := by
  simp only [copyrightSigns, List.mem_cons, List.not_mem_nil, or_false] at h
  rcases h with rfl | rfl | rfl <;> rfl

/-- A sign does not start as the word does. -/
theorem dropStart?_sign_append {sign : List Char} (h : sign ∈ copyrightSigns) (rest : List Char) :
    dropStart? copyrightWord (sign ++ rest) = none := by
  simp only [copyrightSigns, List.mem_cons, List.not_mem_nil, or_false] at h
  rcases h with rfl | rfl | rfl <;> rfl

theorem Announces.ne_nil {announcement : List Char} (h : Announces announcement rest) :
    announcement ≠ [] := by
  have hword : copyrightWord ≠ [] := by decide
  cases h with
  | signed => exact List.append_ne_nil_of_left_ne_nil hword _
  | colon => exact List.append_ne_nil_of_left_ne_nil hword _
  | word => exact hword
  | sign hsign =>
      rintro rfl
      simp [copyrightSigns] at hsign

/-- The colon that is dropped, if there is one. -/
theorem exists_append_dropColon (cs : List Char) :
    ∃ colon, (colon = [] ∨ colon = [':']) ∧ cs = colon ++ dropColon cs := by
  unfold dropColon
  split
  · exact ⟨[':'], .inr rfl, rfl⟩
  · exact ⟨[], .inl rfl, rfl⟩

/-- The word and the sign after it announce a notice, with the colon that is
dropped. -/
theorem exists_announces_signed {after rest : List Char}
    (h : dropSign? (trimLeft after) = some rest) :
    ∃ announcement, copyrightWord ++ after = announcement ++ dropColon rest ∧
      Announces announcement (dropColon rest) := by
  obtain ⟨sign, hsign, htrim⟩ := dropSign?_eq_some_iff.1 h
  obtain ⟨gap, hgap, hafter⟩ := exists_append_trimLeft after
  obtain ⟨colon, hcolon, hrest⟩ := exists_append_dropColon rest
  refine ⟨_, ?_, .signed hgap hsign hcolon⟩
  calc copyrightWord ++ after = copyrightWord ++ (gap ++ (sign ++ (colon ++ dropColon rest))) := by
        rw [← hrest, ← htrim, ← hafter]
    _ = copyrightWord ++ (gap ++ (sign ++ colon)) ++ dropColon rest := by
        simp only [List.append_assoc]

/-- What is dropped from the start of a text announces a notice. -/
theorem exists_announces_of_dropAnnouncement? (h : dropAnnouncement? cs = some rest) :
    ∃ announcement, cs = announcement ++ rest ∧ Announces announcement rest := by
  rw [dropAnnouncement?] at h
  cases hword : dropStart? copyrightWord cs with
  | none =>
      simp only [hword] at h
      obtain ⟨sign, hsign, hcs⟩ := dropSign?_eq_some_iff.1 h
      exact ⟨sign, hcs, .sign hsign⟩
  | some after =>
      obtain rfl := dropStart?_eq_some_iff.1 hword
      simp only [hword] at h
      cases hsigned : dropSign? (trimLeft after) with
      | some rest' =>
          simp only [hsigned, Option.some.injEq] at h
          exact h ▸ exists_announces_signed hsigned
      | none =>
          simp only [hsigned] at h
          cases after with
          | nil =>
              cases h
              exact ⟨copyrightWord, rfl, .word (by simp)⟩
          | cons c after =>
              dsimp only at h
              by_cases hcolon : c = ':'
              · rw [if_pos hcolon] at h
                cases h
                exact ⟨copyrightWord ++ [':'], by simp [hcolon], .colon⟩
              · rw [if_neg hcolon, Option.ite_none_right_eq_some] at h
                obtain ⟨hc, h⟩ := h
                cases h
                exact ⟨copyrightWord, rfl, .word (by simpa using hc)⟩

theorem length_trimLeft_dropColon_le (cs : List Char) :
    (trimLeft (dropColon cs)).length ≤ (trimLeft cs).length := by
  obtain ⟨colon, rfl | rfl, hcs⟩ := exists_append_dropColon cs
  · exact (congrArg (fun ds => (trimLeft ds).length) hcs).ge
  · have hkept : trimLeft cs = ':' :: dropColon cs := by
      conv_lhs => rw [hcs]
      rfl
    have hblanks := length_trimLeft_le (dropColon cs)
    rw [hkept, List.length_cons]
    omega

/-- Where the text announces a notice an announcement is dropped, and no more
is left than after this one. -/
theorem exists_dropAnnouncement?_of_announces {announcement : List Char}
    (h : Announces announcement rest) :
    ∃ more, dropAnnouncement? (announcement ++ rest) = some more ∧
      (trimLeft more).length ≤ (trimLeft rest).length := by
  cases h with
  | @signed gap sign colon _ hgap hsign hcolon =>
      have htrim : trimLeft (gap ++ (sign ++ (colon ++ rest))) = sign ++ (colon ++ rest) := by
        rw [trimLeft, List.dropWhile_append_of_pos hgap]
        exact trimLeft_sign_append hsign _
      have hdrop : dropAnnouncement? (copyrightWord ++ (gap ++ (sign ++ (colon ++ rest)))) =
          some (dropColon (colon ++ rest)) := by
        simp only [dropAnnouncement?, dropStart?_append_self, htrim,
          dropSign?_eq_some_iff.2 ⟨sign, hsign, rfl⟩]
      refine ⟨dropColon (colon ++ rest), by simpa only [List.append_assoc] using hdrop, ?_⟩
      rcases hcolon with rfl | rfl
      · exact length_trimLeft_dropColon_le rest
      · exact le_rfl
  | colon =>
      refine ⟨rest, ?_, le_rfl⟩
      rw [List.append_assoc, List.singleton_append]
      simp only [dropAnnouncement?, dropStart?_append_self]
      rfl
  | word hrest =>
      simp only [dropAnnouncement?, dropStart?_append_self]
      cases hsigned : dropSign? (trimLeft rest) with
      | some rest' =>
          obtain ⟨sign, -, htrim⟩ := dropSign?_eq_some_iff.1 hsigned
          refine ⟨dropColon rest', rfl, ?_⟩
          have hcolon := length_trimLeft_dropColon_le rest'
          have hblanks := length_trimLeft_le rest'
          rw [htrim, List.length_append]
          omega
      | none =>
          cases rest with
          | nil => exact ⟨[], rfl, le_rfl⟩
          | cons c rest =>
              have hc : isBlank c = true := hrest c rfl
              have hcolon : c ≠ ':' := by
                rintro rfl
                cases hc
              exact ⟨c :: rest, by simp [hc, hcolon], le_rfl⟩
  | sign hsign =>
      refine ⟨rest, ?_, le_rfl⟩
      rw [dropAnnouncement?, dropStart?_sign_append hsign]
      exact dropSign?_eq_some_iff.2 ⟨_, hsign, rfl⟩

/-- **The announcement is found**: what is taken off the start of a text is the
longest announcement there, with the blanks after it. -/
theorem exists_isFound_dropAnnouncement (cs : List Char) :
    ∃ found, cs = found ++ dropAnnouncement cs ∧
      IsFound AnnouncementPattern found (dropAnnouncement cs) := by
  -- No pattern reaches further than what is dropped.
  have hreach (found' rest' : List Char) (hsplit : found' ++ rest' = cs)
      (h : AnnouncementPattern found' rest') :
      ∃ more, dropAnnouncement? cs = some more ∧ (trimLeft more).length ≤ rest'.length := by
    obtain ⟨announcement, blanks, rfl, hblanks, hannounces⟩ := h
    obtain ⟨more, hdrop, hlength⟩ := exists_dropAnnouncement?_of_announces hannounces
    rw [List.append_assoc] at hsplit
    refine ⟨more, hsplit ▸ hdrop, hlength.trans ?_⟩
    rw [trimLeft, List.dropWhile_append_of_pos hblanks]
    exact length_trimLeft_le rest'
  rw [dropAnnouncement]
  cases hdrop : dropAnnouncement? cs with
  | none =>
      refine ⟨[], rfl, .inr ⟨rfl, fun found' rest' hsplit h => ?_⟩⟩
      obtain ⟨more, hmore, -⟩ := hreach found' rest' hsplit h
      rw [hdrop] at hmore
      cases hmore
  | some more =>
      obtain ⟨announcement, hcs, hannounces⟩ := exists_announces_of_dropAnnouncement? hdrop
      obtain ⟨blanks, hblanks, hmore⟩ := exists_append_trimLeft more
      have hsplit : cs = announcement ++ blanks ++ trimLeft more := by
        rw [List.append_assoc, ← hmore]
        exact hcs
      refine ⟨announcement ++ blanks, hsplit, .inl (isLongest_of_length_le ?_ ?_)⟩
      · exact ⟨announcement, blanks, rfl, hblanks, hmore ▸ hannounces⟩
      · intro found' rest' hsplit' h
        obtain ⟨more', hmore', hlength⟩ := hreach found' rest' (hsplit'.trans hsplit.symm) h
        rw [hdrop] at hmore'
        obtain rfl := Option.some.inj hmore'
        exact hlength

end LicenseAudit
