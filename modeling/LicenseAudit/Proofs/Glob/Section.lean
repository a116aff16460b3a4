import LicenseAudit.Proofs.Glob.Language

/-!
# Sections of a variant

The parts between two globstars of a variant are a **section**: literal segments,
each of which takes one name.  Sections **stand** among names when these can be cut
into runs that the sections fit, in their order, and names between them that are
skipped.  A variant fits names when the sections of its body stand among them
(`fits_body`), and sections that stand among names stand behind more names as well
(`Stand.prepend`).
-/

namespace LicenseAudit.Glob

open Text

variable {s qs tail : List Part} {sections : List (List Part)}
variable {names rest : List (List Char)}

/-- A part is literal when its segment is. -/
def Part.IsLiteral : Part → Prop
  | .globstar => True
  | .segment ls => Glob.IsLiteral ls

instance : DecidablePred Part.IsLiteral
  | .globstar => .isTrue trivial
  | .segment ls => inferInstanceAs (Decidable (Glob.IsLiteral ls))

/-- Parts are a **section** when they are literal segments. -/
structure IsSection (s : List Part) : Prop where
  free : .globstar ∉ s
  literal : ∀ p ∈ s, p.IsLiteral

theorem IsSection.of_cons {p : Part} (h : IsSection (p :: s)) : IsSection s where
  free hs := h.free (List.mem_cons_of_mem p hs)
  literal q hq := h.literal q (List.mem_cons_of_mem p hq)

/-- The first part of a section is a literal segment. -/
theorem IsSection.exists_segment {p : Part} (h : IsSection (p :: s)) :
    ∃ ls, p = .segment ls ∧ Glob.IsLiteral ls := by
  cases p with
  | globstar => exact absurd List.mem_cons_self h.free
  | segment ls => exact ⟨ls, rfl, h.literal _ List.mem_cons_self⟩

/-- The names are the names of files. -/
def AreNames (names : List (List Char)) : Prop :=
  ∀ name ∈ names, Path.IsName (String.ofList name)

theorem AreNames.of_subset (h : AreNames names) (hsubset : rest ⊆ names) : AreNames rest :=
  fun name hname => h name (hsubset hname)

/-- A section takes as many names as it has parts. -/
theorem length_eq_of_fits (hs : .globstar ∉ s) (h : Fits s names) : names.length = s.length := by
  induction h with
  | nil => rfl
  | globstar => exact absurd List.mem_cons_self hs
  | segment _ _ ih =>
      rw [List.length_cons, List.length_cons, ih fun hmem => hs (List.mem_cons_of_mem _ hmem)]

theorem fits_append (hs : .globstar ∉ s) :
    Fits (s ++ qs) names ↔ ∃ run rest, names = run ++ rest ∧ Fits s run ∧ Fits qs rest := by
  induction s generalizing names with
  | nil =>
      constructor
      · exact fun h => ⟨[], names, rfl, .nil, h⟩
      · rintro ⟨_, rest, rfl, h, hrest⟩
        rwa [fits_nil.1 h]
  | cons p s ih =>
      have hs' : .globstar ∉ s := fun hmem => hs (List.mem_cons_of_mem p hmem)
      cases p with
      | globstar => exact absurd List.mem_cons_self hs
      | segment ls =>
          rw [List.cons_append, fits_segment_cons]
          constructor
          · rintro ⟨name, names, rfl, hspans, h⟩
            obtain ⟨run, rest, rfl, hrun, hrest⟩ := (ih hs').1 h
            exact ⟨name :: run, rest, rfl, .segment hspans hrun, hrest⟩
          · rintro ⟨_, rest, rfl, h, hrest⟩
            obtain ⟨name, run, rfl, hspans, hrun⟩ := fits_segment_cons.1 h
            exact ⟨name, run ++ rest, rfl, hspans, (ih hs').2 ⟨run, rest, rfl, hrun, hrest⟩⟩

/-- A section accepts the names that it fits. -/
theorem acceptsAll_iff (hs : IsSection s) (hnames : AreNames names) :
    acceptsAll s names = true ↔ Fits s names := by
  induction s generalizing names with
  | nil =>
      match names with
      | [] => exact iff_of_true rfl .nil
      | [name] =>
          have hne : name ≠ [] := by simpa using (hnames name (by simp)).ne_empty
          simpa [acceptsAll, fits_nil] using hne
      | _ :: _ :: _ => simp [acceptsAll, fits_nil]
  | cons p s ih =>
      obtain ⟨ls, rfl, hls⟩ := hs.exists_segment
      cases names with
      | nil => simp [acceptsAll, fits_segment_cons]
      | cons name names =>
          have hname := accepts_iff_spans hls (hnames name List.mem_cons_self)
          have hrest := ih hs.of_cons (hnames.of_subset (List.subset_cons_self name names))
          rw [acceptsAll, Bool.and_eq_true, Part.acceptsName, hname, hrest, fits_segment_cons]
          constructor
          · exact fun ⟨hspans, h⟩ => ⟨name, names, rfl, hspans, h⟩
          · rintro ⟨_, _, hsplit, hspans, h⟩
            obtain ⟨rfl, rfl⟩ := List.cons.inj hsplit
            exact ⟨hspans, h⟩

theorem acceptsFirst_iff (hs : IsSection s) (hnames : AreNames names) :
    acceptsFirst s names = true ↔ Fits s (names.take s.length) := by
  have htake := acceptsAll_iff hs (hnames.of_subset (List.take_subset s.length names))
  rw [acceptsFirst, Bool.and_eq_true, decide_eq_true_iff, htake]
  refine and_iff_right_of_imp fun h => ?_
  have hlength := length_eq_of_fits hs.free h
  rw [List.length_take] at hlength
  omega

/-- Sections **stand** among names in their order and leave the `rest` of the
names behind the last of them. -/
def Stand : List (List Part) → List (List Char) → List (List Char) → Prop
  | [], names, rest => names = rest
  | s :: sections, names, rest =>
    ∃ skipped run after, names = skipped ++ (run ++ after) ∧ Fits s run ∧ Stand sections after rest

/-- The body of a variant fits names when its sections stand among them. -/
theorem fits_body (hfree : ∀ s ∈ sections, .globstar ∉ s) :
    Fits (sections.flatMap (.globstar :: ·) ++ .globstar :: tail) names ↔
      ∃ rest, Stand sections names rest ∧ Fits (.globstar :: tail) rest := by
  induction sections generalizing names with
  | nil => simp [Stand]
  | cons s sections ih =>
      have hs := hfree s List.mem_cons_self
      have hrest {names} := @ih names fun s hs => hfree s (List.mem_cons_of_mem _ hs)
      rw [List.flatMap_cons, List.append_assoc, List.cons_append, fits_globstar_cons]
      constructor
      · rintro ⟨skipped, _, rfl, -, h⟩
        obtain ⟨run, after, rfl, hrun, h⟩ := (fits_append hs).1 h
        obtain ⟨rest, hstand, h⟩ := hrest.1 h
        exact ⟨rest, ⟨skipped, run, after, rfl, hrun, hstand⟩, h⟩
      · rintro ⟨rest, ⟨skipped, run, after, rfl, hrun, hstand⟩, h⟩
        refine ⟨skipped, _, rfl, fun hnil => absurd hnil (by simp), ?_⟩
        exact (fits_append hs).2 ⟨run, after, rfl, hrun, hrest.2 ⟨rest, hstand, h⟩⟩

/-- Sections that stand among names stand when more names come before. -/
theorem Stand.prepend (h : Stand sections names rest) (before : List (List Char)) :
    ∃ rest', Stand sections (before ++ names) rest' ∧ rest.length ≤ rest'.length := by
  cases sections with
  | nil =>
      obtain rfl := h
      exact ⟨before ++ names, rfl, by simp⟩
  | cons s sections =>
      obtain ⟨skipped, run, after, rfl, hrun, hstand⟩ := h
      exact ⟨rest, ⟨before ++ skipped, run, after, by simp, hrun, hstand⟩, le_rfl⟩

/-- The number of names that sections take. -/
def totalSize (sections : List (List Part)) : Nat :=
  sections.flatten.length

@[simp]
theorem totalSize_cons : totalSize (s :: sections) = s.length + totalSize sections := by
  simp [totalSize]

theorem Stand.length_le (hfree : ∀ s ∈ sections, .globstar ∉ s) (h : Stand sections names rest) :
    totalSize sections + rest.length ≤ names.length := by
  induction sections generalizing names with
  | nil => obtain rfl := h; simp [totalSize]
  | cons s sections ih =>
      obtain ⟨skipped, run, after, rfl, hrun, hstand⟩ := h
      have hlength := length_eq_of_fits (hfree s List.mem_cons_self) hrun
      have hrest := ih (fun s hs => hfree s (List.mem_cons_of_mem _ hs)) hstand
      simp only [totalSize_cons, List.length_append]
      omega

/-- What sections leave behind are the last names. -/
theorem Stand.suffix (h : Stand sections names rest) : rest <:+ names := by
  induction sections generalizing names with
  | nil => exact h ▸ List.suffix_refl _
  | cons s sections ih =>
      obtain ⟨skipped, run, after, rfl, -, hstand⟩ := h
      exact (ih hstand).trans ((List.suffix_append run after).trans (List.suffix_append skipped _))

end LicenseAudit.Glob
