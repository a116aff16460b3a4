import LicenseAudit.Proofs.Inventory

/-!
# The name of a license text

A license text is filed under the identifier that stands before the extension
of its name, and under the whole name when nothing that is recognized stands
there.  With one more extension every identifier names its own text.  Alone it
does so unless its own stem is an identifier as well, as that of
`LicenseRef-a.b` is: the text is then filed under the stem (`describe_named`).
-/

namespace LicenseAudit.Catalog

open LicenseAudit.Path (IsStem)

variable {catalog : Catalog} {id stem : String}

/-- The record of a text that is filed under an identifier. -/
def filed (catalog : Catalog) (id path : String) (hasExtension : Bool) : LicenseRecord :=
  ⟨id, path, catalog.isKnown id, catalog.isDeprecated id, hasExtension⟩

theorem describe_eq_filed {name : String} {hasExtension : Bool}
    (h : catalog.identify name = (id, hasExtension)) (path : String) :
    catalog.describe name path = catalog.filed id path hasExtension := by
  rw [describe, h, filed]

/-- A stem that is recognized comes before the name. -/
theorem identify_eq_stem {name : String} (hstem : IsStem stem name)
    (hrecognized : catalog.recognizes stem = true) (hslash : '/' ∉ name.toList) :
    catalog.identify name = (stem, true) := by
  obtain ⟨ext, hext, hcut⟩ := hstem.exists_cutExtension_eq hslash
  rw [identify, hcut]
  exact if_pos ⟨hext, hrecognized⟩

/-- A name that is recognized stands for itself unless its stem is recognized
too. -/
theorem identify_eq_self (hrecognized : catalog.recognizes id = true) (hslash : '/' ∉ id.toList)
    (hstems : ∀ stem, IsStem stem id → catalog.recognizes stem = false) :
    catalog.identify id = (id, false) := by
  by_cases hcut : ∃ stem, IsStem stem id
  · obtain ⟨stem, hstem⟩ := hcut
    obtain ⟨ext, -, hcut⟩ := hstem.exists_cutExtension_eq hslash
    simp [identify, hcut, hstems stem hstem, hrecognized]
  · simp [identify, Path.cutExtension_eq_self hslash (not_exists.1 hcut), hrecognized]

/-- An identifier is the stem of its name with an extension. -/
theorem isStem_append {ext : String} (hne : id ≠ "") (hext : ext ≠ "")
    (hdot : '.' ∉ ext.toList) : IsStem id (id ++ "." ++ ext) := by
  have hlong : 2 < (id ++ "." ++ ext).length := by
    have hid : 0 < id.length := Nat.pos_of_ne_zero (mt String.length_eq_zero_iff.1 hne)
    have hlength : 0 < ext.length := Nat.pos_of_ne_zero (mt String.length_eq_zero_iff.1 hext)
    have hone : ".".length = 1 := rfl
    rw [String.length_append, String.length_append]
    omega
  refine ⟨hne, fun habove => ?_, ext, hdot, rfl⟩
  rw [habove] at hlong
  exact absurd hlong (by decide)

/-- **A license text is filed under the identifier that it is named for**:
with an extension after it always, and without one unless the identifier has a
stem that is recognized too, which then takes its place. -/
theorem describe_named (hrecognized : catalog.recognizes id = true) (hne : id ≠ "")
    (hslash : '/' ∉ id.toList) (path : String) :
    ((∀ stem, IsStem stem id → catalog.recognizes stem = false) →
      catalog.describe id path = catalog.filed id path false) ∧
    (∀ stem, IsStem stem id → catalog.recognizes stem = true →
      catalog.describe id path = catalog.filed stem path true) ∧
    ∀ ext : String, ext ≠ "" → '.' ∉ ext.toList → '/' ∉ ext.toList →
      catalog.describe (id ++ "." ++ ext) path = catalog.filed id path true := by
  refine ⟨fun hstems => ?_, fun stem hstem hknown => ?_, fun ext hext hdot hslash' => ?_⟩
  · exact describe_eq_filed (identify_eq_self hrecognized hslash hstems) path
  · exact describe_eq_filed (identify_eq_stem hstem hknown hslash) path
  · have hstem := isStem_append hne hext hdot
    have hname : '/' ∉ (id ++ "." ++ ext).toList := by simpa using ⟨hslash, hslash'⟩
    exact describe_eq_filed (identify_eq_stem hstem hrecognized hname) path

/-- A catalog with one license. -/
def zlib : Catalog :=
  ⟨["Zlib"], [], []⟩

theorem describe_reference :
    zlib.recognizes "LicenseRef-a.b" = true ∧
      zlib.describe "LicenseRef-a.b.txt" "LICENSES/LicenseRef-a.b.txt" =
        zlib.filed "LicenseRef-a.b" "LICENSES/LicenseRef-a.b.txt" true ∧
      zlib.describe "LicenseRef-a.b" "LICENSES/LicenseRef-a.b" =
        zlib.filed "LicenseRef-a" "LICENSES/LicenseRef-a.b" true := by
  have hrecognized : zlib.recognizes "LicenseRef-a.b" = true := by decide +kernel
  have hnamed := @describe_named zlib "LicenseRef-a.b" hrecognized (by decide) (by decide)
  refine ⟨hrecognized, ?_, ?_⟩
  · exact (hnamed "LICENSES/LicenseRef-a.b.txt").2.2 "txt" (by decide) (by decide) (by decide)
  · have hstem : IsStem "LicenseRef-a" "LicenseRef-a.b" :=
      ⟨by decide, by decide, "b", by decide, by decide⟩
    exact (hnamed "LICENSES/LicenseRef-a.b").2.1 _ hstem (by decide +kernel)

/-- A reference that is not filed under its own name. -/
theorem describe_reference_ne :
    zlib.recognizes "LicenseRef-a.b" = true ∧ '/' ∉ "LicenseRef-a.b".toList ∧
      (zlib.describe "LicenseRef-a.b" "LICENSES/LicenseRef-a.b").id ≠ "LicenseRef-a.b" ∧
      (zlib.describe "LicenseRef-a.b" "LICENSES/LicenseRef-a.b").hasExtension = true := by
  decide +kernel

end LicenseAudit.Catalog
