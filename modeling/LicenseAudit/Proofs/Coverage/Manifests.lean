import LicenseAudit.Proofs.Coverage.Walk
import LicenseAudit.Proofs.Entry

/-!
# The manifests of a project

The manifests that a walk meets are listed from the shallowest to the deepest
and, where they lie equally deep, in the order of their paths.  That leaves
nothing open: their list is determined by which of them there are
(`isListing_manifests`).  Each lies in its directory under the name that
manifests have (`within_directoryOf`).
-/

namespace LicenseAudit

open Text

/-- The path of a place is that of its directory and its last name. -/
theorem Manifest.within_directoryOf {path : String} (hp : Path.IsPlace path) :
    within (directoryOf path) (Path.name path) = path := by
  obtain ⟨names, hne, hnames, rfl⟩ := hp
  obtain ⟨before, n, rfl⟩ := (List.eq_nil_or_concat' names).resolve_left hne
  have hn := hnames n (by simp)
  have hbefore : ∀ m ∈ before, Path.IsName m := fun m hm => hnames m (by simp [hm])
  rw [Path.name_joined hn]
  by_cases hroot : before = []
  · have hdirectory := directoryOf_within hn.ne_empty hn.no_slash
      (by simp) (show "" ≠ "." by decide)
    rw [hroot, List.nil_append, Path.joined_singleton]
    rw [within, if_pos rfl] at hdirectory
    rw [hdirectory, within, if_pos rfl]
  · have hplace : Path.IsPlace (Path.joined before) := ⟨before, hroot, hbefore, rfl⟩
    obtain ⟨c, cs, hcs, hc⟩ := hplace.exists_toList_eq
    have hdirectory := directoryOf_within hn.ne_empty hn.no_slash
      (by simpa [hcs] using hc) hplace.ne_here
    have hpath : within (Path.joined before) n = Path.joined (before ++ [n]) := by
      rw [within, if_neg hplace.ne_empty, Path.joined_append hroot (by simp),
        Path.joined_singleton]
    rw [← hpath, hdirectory]

namespace ProjectFiles

/-- A manifest is listed before another when it is less deep, or equally deep
and its path comes before the other. -/
def ManifestBefore (a b : String) : Prop :=
  Path.depth a < Path.depth b ∨ Path.depth a = Path.depth b ∧ Before a b

theorem ManifestBefore.asymm {a b : String} (hab : ManifestBefore a b) :
    ¬ ManifestBefore b a := by
  rintro (hba | ⟨hdepth, hba⟩)
  · rcases hab with hab | ⟨hdepth, -⟩ <;> omega
  · rcases hab with hab | ⟨-, hab⟩
    · omega
    · exact hab.asymm hba

theorem ManifestBefore.trans {a b c : String} (hab : ManifestBefore a b)
    (hbc : ManifestBefore b c) : ManifestBefore a c := by
  rcases hab with hab | ⟨hdepth, hab⟩ <;> rcases hbc with hbc | ⟨hdepth', hbc⟩
  · exact Or.inl (hab.trans hbc)
  · exact Or.inl (hdepth' ▸ hab)
  · exact Or.inl (hdepth ▸ hbc)
  · exact Or.inr ⟨hdepth.trans hdepth', hab.trans hbc⟩

theorem isManifestAtMost_iff {a b : String} :
    isManifestAtMost a b = true ↔ ManifestBefore a b ∨ a = b := by
  by_cases hdepth : Path.depth a = Path.depth b
  · simp [isManifestAtMost, ManifestBefore, hdepth, isAtMost_iff]
  · have hne : a ≠ b := fun he => hdepth (he ▸ rfl)
    simp [isManifestAtMost, ManifestBefore, hdepth, hne]

theorem isManifestAtMost_trans {a b c : String} (hab : isManifestAtMost a b = true)
    (hbc : isManifestAtMost b c = true) : isManifestAtMost a c = true :=
  trans_of_iff_before (fun _ _ => isManifestAtMost_iff) (fun _ _ _ => ManifestBefore.trans) hab hbc

theorem isManifestAtMost_total (a b : String) :
    (isManifestAtMost a b || isManifestAtMost b a) = true := by
  by_cases hdepth : Path.depth a = Path.depth b
  · simpa [isManifestAtMost, hdepth] using isAtMost_total a b
  · simp [isManifestAtMost, hdepth, Ne.symm hdepth]

/-- The manifests of a project are listed in their order, each once. -/
theorem isListing_manifests {tree : Tree} {root : String} {f : PathFilter}
    {entries : List (String × Tree)} (ht : tree.IsProper)
    (hroot : tree.find root = .ok (.folder entries)) :
    IsListing ManifestBefore (fun path => (∃ bytes, tree.HasFile root path bytes) ∧
      f.isPassedOver root (split '/' path) = false ∧ f.isManifest path = true ∧
        f.isInExcludedLocation path = false) (of tree root f).manifests := by
  have hnodup := (nodup_walked ht hroot f).filter fun path =>
    f.isManifest path && !f.isInExcludedLocation path
  rw [manifests_of]
  have hlisting := isListing_mergeSort (fun a b c => @isManifestAtMost_trans a b c)
    isManifestAtMost_total hnodup fun a _ b _ hle hne =>
      show ManifestBefore a b from (isManifestAtMost_iff.1 hle).resolve_right hne
  refine hlisting.congr fun path => ?_
  rw [← mem_manifests_iff ht hroot, manifests_of, List.mem_mergeSort]

end ProjectFiles

end LicenseAudit
