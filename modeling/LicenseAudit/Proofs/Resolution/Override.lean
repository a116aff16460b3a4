import LicenseAudit.Proofs.Resolution

/-!
# Entries that override

The shallowest entry that overrides and has a line is all that is known about
a path, whatever the evidence and the other entries say.  Without lines an
entry is passed over before an override is looked for, so one that is meant to
say nothing does not override: `resolve_override` gives both, and
`resolve_silent` is a file whose own lines remain.
-/

namespace LicenseAudit

open Text

/-- What is known about a path when an entry says all of it. -/
def FileInfo.ofEntry (path : String) (e : Entry) : FileInfo :=
  ⟨path, e.fields.sorted, [⟨.entry, e.manifest⟩], []⟩

namespace Resolution

variable {path : String} {entries : List Entry} {e : Entry}

/-- An entry is the **outermost override** among some entries when it
overrides and no other that does is shallower. -/
structure IsOutermost (entries : List Entry) (e : Entry) : Prop where
  mem : e ∈ entries
  overrides : e.strategy = .override
  outermost : ∀ a ∈ entries, a.strategy = .override → e.depth ≤ a.depth

instance (entries : List Entry) (e : Entry) : Decidable (IsOutermost entries e) :=
  decidable_of_iff (e ∈ entries ∧ e.strategy = .override ∧
      ∀ a ∈ entries, a.strategy = .override → e.depth ≤ a.depth)
    ⟨fun ⟨hmem, hover, hleast⟩ => ⟨hmem, hover, hleast⟩,
      fun ⟨hmem, hover, hleast⟩ => ⟨hmem, hover, hleast⟩⟩

/-- The entries that apply to a path and have a line. -/
def speaking (path : String) (entries : List Entry) : List Entry :=
  (Entry.applicable entries path).filter (·.fields.any)

theorem any_of_mem_speaking (h : e ∈ speaking path entries) : e.fields.any = true :=
  (List.mem_filter.1 h).2

/-- With a line the outermost override is the outermost of those with a line. -/
theorem IsOutermost.speaking (he : IsOutermost (Entry.applicable entries path) e)
    (hany : e.fields.any = true) : IsOutermost (speaking path entries) e :=
  ⟨List.mem_filter.2 ⟨he.mem, hany⟩, he.overrides,
    fun a ha => he.outermost a (List.mem_filter.1 ha).1⟩

/-- Evidence of the outermost override comes first. -/
theorem head?_given_override {name : String} (hgiven : ∀ e ∈ entries, e.GivenBy name)
    (he : IsOutermost (speaking path entries) e) :
    (given path entries .override).head? = some (e.toEvidence (any_of_mem_speaking he.mem)) := by
  have hany := any_of_mem_speaking he.mem
  have happlies := (List.mem_filter.1 he.mem).1
  have hmem := mem_given_iff.2 ⟨e, happlies, hany, he.overrides, rfl⟩
  cases hhead : (given path entries .override).head? with
  | none =>
      rw [List.head?_eq_none_iff.1 hhead] at hmem
      cases hmem
  | some r =>
      obtain ⟨a, ha, hany', hstrategy, rfl⟩ := mem_given_iff.1 (List.mem_of_head? hhead)
      have hle := le_of_head?_eq_some (pairwise_given hgiven .override) hhead hmem
      have hdepth : a.depth = e.depth := by
        refine le_antisymm ?_ (he.outermost a (List.mem_filter.2 ⟨ha, hany'⟩) hstrategy)
        simpa [Entry.toEvidence, Origin.rank] using hle
      obtain rfl := eq_of_mem_applicable hgiven ha happlies hdepth
      rfl

/-- Evidence of one entry amounts to what the entry says. -/
theorem combine_toEvidence {options : Options} (hmerge : options.mergeCopyrights = false)
    (path : String) (hany : e.fields.any = true) :
    combine path { options with unparsable := [] } [e.toEvidence hany] =
      FileInfo.ofEntry path e := by
  have hlines (kind : Field) :
      (combine path { options with unparsable := [] } [e.toEvidence hany]).fields.lines kind =
        e.fields.sorted.lines kind := by
    refine (isListing_lines_combine hmerge path _ kind).unique (fun _ _ hab => hab.asymm) ?_
    rw [Fields.lines_sorted]
    exact (isListing_sortedUnique _).congr fun line => by simp [Entry.toEvidence]
  have hfields := Fields.ext_lines hlines
  simp_all [combine, FileInfo.of, FileInfo.ofEntry, Source.ofEvidence, Entry.toEvidence,
    Origin.kind, List.eraseDups_cons]

/-- The outermost override among the entries with a line is all that resolution
gives. -/
theorem resolve_eq_ofEntry {name : String} (hgiven : ∀ e ∈ entries, e.GivenBy name)
    (he : IsOutermost (speaking path entries) e) (records : List Evidence) {options : Options}
    (hmerge : options.mergeCopyrights = false) :
    resolve path records entries options = .ok (FileInfo.ofEntry path e) := by
  rw [resolve_eq_ok, head?_given_override hgiven he]
  exact congrArg Except.ok (combine_toEvidence hmerge path _)

/-- An entry without lines is not all that resolution gives: a deeper override
has lines, and without one the texts in the file that are no expressions are
kept. -/
theorem resolve_ne_ofEntry (path : String) (entries : List Entry) (hany : e.fields.any = false) :
    resolve path [] entries { unparsable := ["?"] } ≠ .ok (FileInfo.ofEntry path e) := by
  rw [resolve_eq_ok]
  intro h
  have hinfo := Except.ok.inj h
  cases hhead : (given path entries .override).head? with
  | none =>
      rw [hhead] at hinfo
      have hunparsable := congrArg FileInfo.unparsable hinfo
      simp [combine, FileInfo.of, FileInfo.ofEntry] at hunparsable
  | some whole =>
      rw [hhead] at hinfo
      obtain ⟨kind, hkind⟩ := Fields.any_iff_exists_has.1 whole.any
      have hne : whole.fields.lines kind ≠ [] := by simpa [Fields.has] using hkind
      obtain ⟨line, hline⟩ := List.exists_mem_of_ne_nil _ hne
      have hmerge : Options.mergeCopyrights {} = false := rfl
      have hlisting := isListing_lines_combine hmerge path [whole] kind
      have hmem : line ∈ (FileInfo.ofEntry path e).fields.lines kind := by
        rw [← hinfo]
        exact (hlisting.mem_iff line).2 ⟨whole, by simp, hline⟩
      rw [FileInfo.ofEntry, Fields.lines_sorted, mem_sortedUnique] at hmem
      have hhas : e.fields.has kind = true := by
        simpa [Fields.has] using List.ne_nil_of_mem hmem
      rw [Fields.any_iff_exists_has.2 ⟨kind, hhas⟩] at hany
      cases hany

/-- **An entry that overrides**: of the entries that apply and have a line the
outermost override is all that is known about a path, whatever else is found.
Of all entries that apply the outermost override is that exactly if it has a
line. -/
theorem resolve_override {name : String} (path : String) (entries : List Entry)
    (hgiven : ∀ e ∈ entries, e.GivenBy name) :
    (∀ e, IsOutermost (speaking path entries) e →
      ∀ (records : List Evidence) (options : Options), options.mergeCopyrights = false →
        resolve path records entries options = .ok (FileInfo.ofEntry path e)) ∧
    ∀ e, IsOutermost (Entry.applicable entries path) e →
      ((∀ (records : List Evidence) (options : Options), options.mergeCopyrights = false →
        resolve path records entries options = .ok (FileInfo.ofEntry path e)) ↔
      e.fields.any = true) := by
  constructor
  · intro e he records options hmerge
    exact resolve_eq_ofEntry hgiven he records hmerge
  · intro e he
    constructor
    · intro hwhole
      by_contra hany
      exact resolve_ne_ofEntry path entries (Bool.eq_false_iff.2 hany) (hwhole [] _ rfl)
    · intro hany records options hmerge
      exact resolve_eq_ofEntry hgiven (he.speaking hany) records hmerge

/-- An entry that overrides and says nothing. -/
def silent : Entry :=
  Manifest.entryOf "REUSE.toml" ⟨["**"], .override, [], [], []⟩ 0

/-- Below it an entry that overrides and says what the license is. -/
def licensed : Entry :=
  Manifest.entryOf "vendor/REUSE.toml" ⟨["**"], .override, [], ["Zlib"], []⟩ 0

/-- The evidence of a file with a copyright line. -/
def header : Evidence :=
  ⟨.header, "vendor/lib.c", ⟨["2020 Jane Doe"], [], []⟩, rfl⟩

theorem resolve_override_licensed :
    (∀ e ∈ [silent, licensed], e.GivenBy "REUSE.toml") ∧
      IsOutermost (speaking "vendor/lib.c" [silent, licensed]) licensed ∧
      resolve "vendor/lib.c" [header] [silent, licensed] { unparsable := ["MIT and"] } =
        .ok ⟨"vendor/lib.c", ⟨[], ["Zlib"], []⟩, [⟨.entry, "vendor/REUSE.toml"⟩], []⟩ := by
  have hgiven : ∀ e ∈ [silent, licensed], e.GivenBy "REUSE.toml" := by
    simp only [List.mem_cons, List.not_mem_nil, or_false]
    rintro e (rfl | rfl) <;> exact ⟨by decide, by decide⟩
  have hlast : Entry.lastOfEach ([silent, licensed].filter (·.isMatch "vendor/lib.c")) =
      [silent, licensed] := by
    decide +kernel
  have happlicable : Entry.applicable [silent, licensed] "vendor/lib.c" = [silent, licensed] := by
    rw [Entry.applicable, hlast]
    exact List.mergeSort_of_pairwise (by decide +kernel)
  have houtermost : IsOutermost (speaking "vendor/lib.c" [silent, licensed]) licensed := by
    rw [speaking, happlicable]
    decide +kernel
  exact ⟨hgiven, houtermost, (resolve_override _ _ hgiven).1 licensed houtermost [header] _ rfl⟩

/-- The lines of a file remain below an entry that overrides and says
nothing. -/
theorem resolve_silent :
    (∀ e ∈ [silent], e.GivenBy "REUSE.toml") ∧
      IsOutermost (Entry.applicable [silent] "vendor/lib.c") silent ∧
      resolve "vendor/lib.c" [header] [silent] {} =
        .ok ⟨"vendor/lib.c", ⟨["2020 Jane Doe"], [], []⟩, [⟨.header, "vendor/lib.c"⟩], []⟩ := by
  have hgiven : ∀ e ∈ [silent], e.GivenBy "REUSE.toml" := by
    simp only [List.mem_singleton]
    rintro e rfl
    exact ⟨by decide, by decide⟩
  exact ⟨hgiven, by decide +kernel, by decide +kernel⟩

end Resolution

end LicenseAudit
