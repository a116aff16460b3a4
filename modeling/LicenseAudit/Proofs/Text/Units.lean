import LicenseAudit.Proofs.Text.Order
import Mathlib.Data.List.Lex

/-!
# The order of units

Texts are compared character by character, by rank.  That is the order of their
lists of units: of two characters the one of lower rank has the smaller first
unit, or the same one and the smaller second (`units_append_lt`), so the place
where two texts part decides about both (`before_iff_units`).
-/

namespace LicenseAudit.Text

/-- The character of lower rank has the smaller units, whatever follows. -/
theorem units_append_lt {c d : Char} (h : unitRank c < unitRank d) (us vs : List Nat) :
    units c ++ us < units d ++ vs := by
  have hc := not_surrogate c
  have hd := not_surrogate d
  have hlimit : d.toNat < 0xD800 ∨ 0xDFFF < d.toNat ∧ d.toNat < 0x110000 := d.valid
  unfold unitRank at h
  unfold units
  split_ifs at h ⊢
  all_goals simp only [List.cons_append, List.nil_append, List.cons_lt_cons_iff]
  all_goals omega

/-- Every character has a unit. -/
theorem exists_units_eq_cons (c : Char) : ∃ u us, units c = u :: us := by
  unfold units
  split
  · exact ⟨_, _, rfl⟩
  · exact ⟨_, _, rfl⟩

theorem unitsOf_cons (c : Char) (cs : List Char) : unitsOf (c :: cs) = units c ++ unitsOf cs :=
  rfl

theorem unitsOf_lt_of_compareLex {cs ds : List Char}
    (h : List.compareLex (compareOn unitRank) cs ds = .lt) : unitsOf cs < unitsOf ds := by
  induction cs generalizing ds with
  | nil =>
      cases ds with
      | nil => cases h
      | cons d ds =>
          obtain ⟨u, us, hunits⟩ := exists_units_eq_cons d
          rw [unitsOf_cons, hunits, List.cons_append]
          exact List.nil_lt_cons u _
  | cons c cs ih =>
      cases ds with
      | nil => cases h
      | cons d ds =>
          rw [List.compareLex_cons_cons, Ordering.then_eq_lt] at h
          rcases h with hrank | ⟨hrank, hrest⟩
          · exact units_append_lt (Nat.compare_eq_lt.1 hrank) _ _
          · obtain rfl : c = d := unitRank_injective (Nat.compare_eq_eq.1 hrank)
            exact List.append_left_lt (ih hrest)

/-- **Texts are ordered by their units**: one comes before another when its
list of 16-bit units does. -/
theorem before_iff_units {a b : String} : Before a b ↔ unitsOf a.toList < unitsOf b.toList := by
  refine ⟨unitsOf_lt_of_compareLex, fun hlt => ?_⟩
  cases h : unitOrder a b with
  | lt => exact h
  | eq =>
      rw [unitOrder_eq_iff.1 h] at hlt
      exact absurd hlt (List.lt_irrefl _)
  | gt =>
      have hgt : unitsOf b.toList < unitsOf a.toList :=
        unitsOf_lt_of_compareLex (Std.OrientedCmp.lt_of_gt h)
      exact absurd hgt (List.lt_asymm hlt)

end LicenseAudit.Text
