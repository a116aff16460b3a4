import LicenseAudit.Collection
import LicenseAudit.Proofs.Tag.Head
import LicenseAudit.Proofs.Text.Blank
import LicenseAudit.Proofs.Text.Utf8

/-!
# What the first bytes of a file tell

The bytes that are read of a file may stop anywhere: within a character,
between a carriage return and its line feed, within a tag, a marker or an
ignore region.  Wherever they stop, the text that is read from them is a
head of the text of the file (`textOf?_isHead`), and so all that is found on
its visible lines but the last is found in the whole file as well:
`Validator.extract_firstBytes`.

The last visible line is cut off with the bytes, and what is found on it may
be in no line of the file: `license_cut`.
-/

namespace LicenseAudit

open Text Tag

namespace Text.Utf8

/-- Only a character that breaks off reads otherwise at the end of the
bytes. -/
theorem isHead_decode (front back : List UInt8) :
    IsHead (decode front) (decode (front ++ back)) := by
  obtain ⟨cs, q, hq⟩ := exists_decodeAfter_append none front
  have hfront := hq []
  rw [List.append_nil] at hfront
  refine ⟨cs, decodeAfter q [], decodeAfter q back, hfront, hq back, ?_⟩
  cases q with
  | none => simp [decodeAfter]
  | some p => simp [decodeAfter, replacement]

end Text.Utf8

namespace Collection

/-- A carriage return at the end of a head is on its last line, also when its
line feed is cut off. -/
theorem isHead_unixText {head whole : List Char} (h : IsHead head whole) :
    IsHead (unixText head) (unixText whole) := by
  obtain ⟨start, last, rest, rfl, rfl, hlast⟩ := h
  induction start using unixText.induct with
  | case1 =>
      rw [List.nil_append, unixText_of_not_mem hlast]
      exact .of_not_mem hlast _
  | case2 start ih => exact ih.append_left ['\n']
  | case3 c start hpair ih =>
      have hcons (hfree : c = '\r' → ∀ cs, (start ++ cs).head? ≠ some '\n') :
          IsHead (unixText (c :: (start ++ last))) (unixText (c :: (start ++ rest))) := by
        rw [unixText_cons fun hc => hfree hc last, unixText_cons fun hc => hfree hc rest]
        exact ih.append_left [c]
      cases start with
      | cons d start =>
          refine hcons fun hc cs hd => hpair start hc ?_
          rw [Option.some.inj hd]
      | nil =>
          by_cases hc : c = '\r'
          · have hline : '\n' ∉ c :: last := by
              rw [hc, List.mem_cons, not_or]
              exact ⟨by decide, hlast⟩
            have hhead : unixText ([c] ++ last) = c :: last := unixText_of_not_mem hline
            rw [hhead]
            exact .of_not_mem hline _
          · exact hcons fun h => absurd h hc

theorem limited_isPrefix (limit : Option Nat) (bytes : List UInt8) :
    limited limit bytes <+: bytes := by
  cases limit with
  | none => exact List.prefix_rfl
  | some n =>
      rw [limited]
      split
      · exact List.take_prefix n bytes
      · exact List.prefix_rfl

/-- The text that is read is that of the bytes that are read. -/
theorem textOf?_eq_some_iff {limit : Option Nat} {bytes : List UInt8} {text : String} :
    textOf? limit bytes = some text ↔ (bytes.take sniffedBytes).contains 0 = false ∧
      unixText (Utf8.decode (limited limit bytes)) = text.toList := by
  rw [textOf?]
  cases (bytes.take sniffedBytes).contains 0 with
  | true => simp
  | false =>
      simp only [Bool.false_eq_true, if_false, Option.some.injEq, true_and]
      constructor
      · intro h
        rw [← h, String.toList_ofList]
      · intro h
        rw [h, String.ofList_toList]

/-- **The text that is read from a file** is a head of the text of the whole
file. -/
theorem textOf?_isHead {limit : Option Nat} {bytes : List UInt8} {head : String}
    (h : textOf? limit bytes = some head) :
    ∃ whole, textOf? none bytes = some whole ∧ IsHead head.toList whole.toList := by
  obtain ⟨hsniffed, hhead⟩ := textOf?_eq_some_iff.1 h
  refine ⟨String.ofList (unixText (Utf8.decode bytes)), ?_, ?_⟩
  · rw [textOf?_eq_some_iff, String.toList_ofList, limited]
    exact ⟨hsniffed, rfl⟩
  · obtain ⟨back, hback⟩ := limited_isPrefix limit bytes
    have hdecoded := Utf8.isHead_decode (limited limit bytes) back
    rw [hback] at hdecoded
    rw [← hhead, String.toList_ofList]
    exact isHead_unixText hdecoded

end Collection

open Collection

/-- **What the first bytes of a file tell is told by the whole file**: all that
is found on the visible lines of the text that is read, the last one
excepted, is found in the whole text.  So is what is found on the last visible
line when the whole text was read, or a line of it ends there and no region
is left open. -/
theorem Validator.extract_firstBytes (v : Validator) {limit : Option Nat} {bytes : List UInt8}
    {head : String} (hhead : textOf? limit bytes = some head) :
    ∃ whole, textOf? none bytes = some whole ∧
      (v.found (pieces '\n' (visible head.toList)).dropLast).IsPart (v.extract whole).1 ∧
      (head = whole ∨ LeavesNoneOpen head.toList ∧
          (∃ rest, whole.toList = head.toList ++ '\n' :: rest) →
        (v.extract head).1.IsPart (v.extract whole).1) := by
  obtain ⟨whole, hwhole, hishead⟩ := textOf?_isHead hhead
  refine ⟨whole, hwhole, ?_, ?_⟩
  · rw [v.extract_eq_found whole]
    exact v.found_isPart fun line hline f hfound =>
      ⟨line, hishead.visible.subset hline, hfound⟩
  · intro hstop
    rcases hstop with rfl | ⟨hclosed, rest, hrest⟩
    · exact ⟨fun _ _ hline => hline, fun _ hvalue => hvalue⟩
    · rw [v.extract_eq_found, v.extract_eq_found, hrest]
      refine v.found_isPart fun line hline f hfound => ?_
      rcases hclosed.visible_append rest with hnil | hlines
      · rw [hnil, pieces, List.mem_singleton] at hline
        rw [hline] at hfound
        cases hfound
      · exact ⟨line, hlines.subset hline, hfound⟩

/-- The bytes of a license on the first line and a character of two bytes on
the second. -/
def accented : List UInt8 :=
  Utf8.encode "SPDX-License-Identifier: MIT\r\n\u00E9"

theorem textOf?_accented :
    textOf? (some 31) accented = some "SPDX-License-Identifier: MIT\n\uFFFD" := by
  have hlimited : limited (some 31) accented =
      "SPDX-License-Identifier: MIT\r\n".toList.map (fun c => UInt8.ofNat c.toNat) ++ [0xC3] := by
    decide +kernel
  have hstart : Utf8.start (0xC3 : UInt8).toNat = .pending ⟨1, 0x80, 0xBF, 3⟩ := by decide
  have hbroken : Utf8.decode [0xC3] = ['\uFFFD'] := by
    simp only [Utf8.decode, Utf8.decodeAfter, Utf8.decodeAfter.fresh, hstart]
    rfl
  refine textOf?_eq_some_iff.2 ⟨by decide +kernel, ?_⟩
  rw [hlimited, Utf8.decode_append_of_ascii (by decide +kernel), hbroken]
  decide +kernel

/-- Bytes that stop within the character after a license. -/
theorem Validator.extract_firstBytes_accented :
    ∃ whole, textOf? none accented = some whole ∧
      "MIT" ∈ ((new ⟨["MIT"], [], []⟩).extract whole).1.tags.licenses := by
  obtain ⟨whole, hwhole, hpart, -⟩ := (new ⟨["MIT"], [], []⟩).extract_firstBytes textOf?_accented
  exact ⟨whole, hwhole, hpart.tags .licenses "MIT" (by decide +kernel)⟩

/-- A license that is cut off with the bytes may become another one. -/
theorem license_cut :
    textOf? (some 26) (Utf8.encode "SPDX-License-Identifier: MIT") =
      some "SPDX-License-Identifier: M" ∧
    textOf? none (Utf8.encode "SPDX-License-Identifier: MIT") =
      some "SPDX-License-Identifier: MIT" ∧
    ((Validator.new ⟨["MIT"], [], []⟩).extract
      "SPDX-License-Identifier: M").1.tags.licenses = ["M"] ∧
    ((Validator.new ⟨["MIT"], [], []⟩).extract
      "SPDX-License-Identifier: MIT").1.tags.licenses = ["MIT"] := by
  have hlimited : limited (some 26) (Utf8.encode "SPDX-License-Identifier: MIT") =
      "SPDX-License-Identifier: M".toList.map fun c => UInt8.ofNat c.toNat := by decide +kernel
  have hwhole : limited none (Utf8.encode "SPDX-License-Identifier: MIT") =
      "SPDX-License-Identifier: MIT".toList.map fun c => UInt8.ofNat c.toNat := by decide +kernel
  refine ⟨textOf?_eq_some_iff.2 ⟨?_, ?_⟩, textOf?_eq_some_iff.2 ⟨?_, ?_⟩, ?_, ?_⟩
  · decide +kernel
  · rw [hlimited, Utf8.decode_of_ascii (by decide +kernel)]
    decide +kernel
  · decide +kernel
  · rw [hwhole, Utf8.decode_of_ascii (by decide +kernel)]
    decide +kernel
  · decide +kernel
  · decide +kernel

end LicenseAudit
