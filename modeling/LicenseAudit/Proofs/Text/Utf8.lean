import LicenseAudit.Text.Utf8

/-!
# Reading bytes one after another

What is read of some bytes stays when more bytes follow, but for a character
that they break off in (`exists_decodeAfter_append`).  A character with a code
below 128 is a byte by itself, so the codes of such characters are read as the
characters (`decode_append_of_ascii`).
-/

namespace LicenseAudit.Text.Utf8

/-- Reading bytes goes on from what was read before them. -/
theorem exists_decodeAfter_append (p : Option Pending) (front : List UInt8) :
    ∃ cs q, ∀ back, decodeAfter p (front ++ back) = cs ++ decodeAfter q back := by
  induction front generalizing p with
  | nil => exact ⟨[], p, fun back => rfl⟩
  | cons b front ih =>
      have hmore (c : Char) : ∃ cs q, ∀ back,
          c :: decodeAfter none (front ++ back) = cs ++ decodeAfter q back := by
        obtain ⟨cs, q, hq⟩ := ih none
        exact ⟨c :: cs, q, fun back => congrArg (c :: ·) (hq back)⟩
      have hfresh : ∃ cs q, ∀ back,
          decodeAfter.fresh b (front ++ back) = cs ++ decodeAfter q back := by
        simp only [decodeAfter.fresh]
        cases start b.toNat with
        | whole c => exact hmore c
        | pending p => exact ih (some p)
        | broken => exact hmore replacement
      simp only [List.cons_append]
      cases p with
      | none =>
          simp only [decodeAfter]
          exact hfresh
      | some p =>
          simp only [decodeAfter]
          cases p.next b.toNat with
          | whole c => exact hmore c
          | pending q => exact ih (some q)
          | broken =>
              obtain ⟨cs, q, hq⟩ := hfresh
              exact ⟨replacement :: cs, q, fun back => congrArg (replacement :: ·) (hq back)⟩

/-- Bytes that are the codes of characters are read as these. -/
theorem decode_append_of_ascii {cs : List Char} (h : cs.all (·.toNat < 0x80) = true)
    (back : List UInt8) :
    decode (cs.map (fun c => UInt8.ofNat c.toNat) ++ back) = cs ++ decode back := by
  induction cs with
  | nil => rfl
  | cons c cs ih =>
      rw [List.all_cons, Bool.and_eq_true, decide_eq_true_iff] at h
      obtain ⟨hc, hcs⟩ := h
      have hbyte : (UInt8.ofNat c.toNat).toNat = c.toNat := by
        rw [UInt8.toNat_ofNat', Nat.mod_eq_of_lt (by omega)]
      have hstart : start (UInt8.ofNat c.toNat).toNat = .whole c := by
        rw [hbyte, start, if_pos hc, Char.ofNat_toNat]
      rw [List.map_cons, List.cons_append, decode, decodeAfter, decodeAfter.fresh, hstart]
      exact congrArg (c :: ·) (ih hcs)

theorem decode_of_ascii {cs : List Char} (h : cs.all (·.toNat < 0x80) = true) :
    decode (cs.map fun c => UInt8.ofNat c.toNat) = cs := by
  have hnil : decode [] = [] := by rw [decode, decodeAfter]
  have hdecode := decode_append_of_ascii h []
  rwa [List.append_nil, hnil, List.append_nil] at hdecode

end LicenseAudit.Text.Utf8
