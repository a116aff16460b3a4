import LicenseAudit.Proofs.Entry
import LicenseAudit.Proofs.Evidence
import LicenseAudit.Proofs.Except
import LicenseAudit.Resolution

/-!
# What resolution means

`Meaning` says what is known about a path without saying in which order
evidence and entries are gone through: the shallowest entry that overrides
is everything; otherwise the lines of a kind come from the file's own
evidence, from the deepest closest entry that has any when the own evidence
has none, from every aggregate entry, and from the deprecated manifest when
no entry applies.  The sources are those that contributed.

For entries of manifests of one name exactly one piece of information has
that meaning, and it is what `resolve` returns.
-/

namespace LicenseAudit

open Text

namespace Resolution

section Meaning

variable (path : String) (records : List Evidence) (entries : List Entry)

/-- An entry **counts** with a strategy when it applies to the path and has
a line. -/
structure Counts (strategy : Strategy) (e : Entry) : Prop where
  applies : Entry.Applies entries path e
  any : e.fields.any = true
  strategy_eq : e.strategy = strategy

/-- The shallowest entry that overrides. -/
structure Overrides (e : Entry) : Prop where
  counts : Counts path entries .override e
  shallowest : ∀ a, Counts path entries .override a → e.depth ≤ a.depth

/-- The evidence of the file itself: its sidecar if it has one, and else
its headers. -/
structure IsOwn (r : Evidence) : Prop where
  mem : r ∈ records
  origin : r.origin = .sidecar ∨ r.origin = .header ∧ ∀ s ∈ records, s.origin ≠ .sidecar

/-- The deepest closest entry with lines of a kind that the file's own
evidence lacks. -/
structure FillsIn (kind : Field) (e : Entry) : Prop where
  lacking : ∀ r, IsOwn records r → r.fields.has kind = false
  counts : Counts path entries .closest e
  has : e.fields.has kind = true
  deepest : ∀ a, Counts path entries .closest a → a.fields.has kind = true → a.depth ≤ e.depth

/-- The deprecated manifest where no entry applies. -/
structure StandsIn (r : Evidence) : Prop where
  mem : r ∈ records
  origin : r.origin = .deprecated
  none_applies : ∀ e, ¬ Entry.Applies entries path e

/-- The lines of a kind that are known about the path when no entry
overrides. -/
inductive Known (kind : Field) (x : String) : Prop
  | own (r : Evidence) (h : IsOwn records r) (hx : x ∈ r.fields.lines kind)
  | closest (e : Entry) (h : FillsIn path records entries kind e) (hx : x ∈ e.fields.lines kind)
  | aggregate (e : Entry) (h : Counts path entries .aggregate e) (hx : x ∈ e.fields.lines kind)
  | deprecated (r : Evidence) (h : StandsIn path records entries r)
      (hx : x ∈ r.fields.lines kind)

/-- The sources that contribute to the path when no entry overrides. -/
inductive Contributes : Source → Prop
  | own (r : Evidence) (h : IsOwn records r) : Contributes (.ofEvidence r)
  | closest (kind : Field) (e : Entry) (h : FillsIn path records entries kind e) :
      Contributes ⟨.entry, e.manifest⟩
  | aggregate (e : Entry) (h : Counts path entries .aggregate e) :
      Contributes ⟨.entry, e.manifest⟩
  | deprecated (r : Evidence) (h : StandsIn path records entries r) :
      Contributes (.ofEvidence r)

/-- The information about a path that evidence and entries amount to. -/
inductive Meaning (options : Options) (info : FileInfo) : Prop
  | overridden (e : Entry) (h : Overrides path entries e)
      (path_eq : info.path = path)
      (lines : ∀ kind, IsListing Before (· ∈ e.fields.lines kind) (info.fields.lines kind))
      (sources : info.sources = [⟨.entry, e.manifest⟩])
      (unparsable : info.unparsable = [])
  | combined (h : ∀ e, ¬ Counts path entries .override e)
      (path_eq : info.path = path)
      (lines : ∀ kind,
        IsListing Before (Known path records entries kind) (info.fields.lines kind))
      (sources : IsListing Source.Before (Contributes path records entries) info.sources)
      (unparsable : IsListing Before (· ∈ options.unparsable) info.unparsable)

end Meaning

variable {path : String} {records : List Evidence} {entries : List Entry}

/-- Of the entries that apply to a path no two have the same depth. -/
theorem eq_of_mem_applicable {name : String} (hgiven : ∀ e ∈ entries, e.GivenBy name)
    {a b : Entry} (ha : a ∈ Entry.applicable entries path)
    (hb : b ∈ Entry.applicable entries path) (hdepth : a.depth = b.depth) : a = b := by
  have hdepths : ((Entry.applicable entries path).map Entry.depth).Nodup :=
    List.pairwise_map.2 ((Entry.pairwise_applicable hgiven path).imp ne_of_lt)
  exact List.inj_on_of_nodup_map hdepths ha hb hdepth

/-- Two entries of manifests of one name that apply to a path at the same
depth are the same. -/
theorem eq_of_applies_of_depth_eq {name : String} (hgiven : ∀ e ∈ entries, e.GivenBy name)
    (hplaces : (entries.map Entry.place).Nodup) {a b : Entry}
    (ha : Entry.Applies entries path a) (hb : Entry.Applies entries path b)
    (hdepth : a.depth = b.depth) : a = b :=
  eq_of_mem_applicable hgiven ((Entry.mem_applicable hplaces).2 ha)
    ((Entry.mem_applicable hplaces).2 hb) hdepth

/-- No two pieces of information have one meaning. -/
theorem Meaning.unique {name : String} (hgiven : ∀ e ∈ entries, e.GivenBy name)
    (hplaces : (entries.map Entry.place).Nodup) {options : Options} {info info' : FileInfo}
    (h : Meaning path records entries options info)
    (h' : Meaning path records entries options info') : info = info' := by
  obtain ⟨p, fields, sources, unparsable⟩ := info
  obtain ⟨p', fields', sources', unparsable'⟩ := info'
  have hlisting {P : String → Prop} {l l' : List String} (hl : IsListing Before P l)
      (hl' : IsListing Before P l') : l = l' := hl.unique (fun _ _ => Before.asymm) hl'
  cases h with
  | overridden e he hpath hlines hsources hunparsable =>
      cases h' with
      | overridden e' he' hpath' hlines' hsources' hunparsable' =>
          have hdepth := le_antisymm (he.shallowest e' he'.counts) (he'.shallowest e he.counts)
          obtain rfl := eq_of_applies_of_depth_eq hgiven hplaces he.counts.applies
            he'.counts.applies hdepth
          have hfields := Fields.ext_lines fun kind => hlisting (hlines kind) (hlines' kind)
          simp_all
      | combined hno => exact absurd he.counts (hno e)
  -- Without an entry that overrides every list is a listing, and listings are unique.
  | combined hno hpath hlines hsources hunparsable =>
      cases h' with
      | overridden e he => exact absurd he.counts (hno e)
      | combined _ hpath' hlines' hsources' hunparsable' =>
          have hfields := Fields.ext_lines fun kind => hlisting (hlines kind) (hlines' kind)
          have hsources := hsources.unique (fun _ _ => Source.Before.asymm) hsources'
          have hunparsable := hlisting hunparsable hunparsable'
          simp_all

/-- The first of a list that goes strictly up is its least. -/
theorem le_of_head?_eq_some {α : Type} {f : α → Int} {l : List α} {x y : α}
    (hl : l.Pairwise fun a b => f a < f b) (hx : l.head? = some x) (hy : y ∈ l) : f x ≤ f y := by
  cases l with
  | nil => cases hx
  | cons z zs =>
      cases hx
      rcases List.mem_cons.1 hy with rfl | hy
      · exact Int.le_refl _
      · exact Int.le_of_lt ((List.pairwise_cons.1 hl).1 y hy)

/-- The last of a list that goes strictly up is the greatest of its
kind. -/
theorem le_of_find?_reverse_eq_some {α : Type} {f : α → Int} {p : α → Bool} {l : List α}
    {x y : α} (hl : l.Pairwise fun a b => f a < f b) (hx : l.reverse.find? p = some x)
    (hy : y ∈ l) (hp : p y = true) : f y ≤ f x := by
  obtain ⟨-, later, earlier, hsplit, hlater⟩ := List.find?_eq_some_iff_append.1 hx
  rw [← List.pairwise_reverse, hsplit, List.pairwise_append] at hl
  rcases List.mem_append.1 (hsplit ▸ List.mem_reverse.2 hy) with hy | hy
  · have hnot := hlater y hy
    rw [hp] at hnot
    cases hnot
  · rcases List.mem_cons.1 hy with rfl | hy
    · exact Int.le_refl _
    · exact Int.le_of_lt ((List.pairwise_cons.1 hl.2.1).1 y hy)

/-- The evidence that the entries with a strategy are, the shallowest
first. -/
def given (path : String) (entries : List Entry) (strategy : Strategy) : List Evidence :=
  (((Entry.applicable entries path).filter (·.fields.any)).pmap Entry.toEvidence
    fun _ h => (List.mem_filter.1 h).2).filter (·.origin.strategy = strategy)

/-- The deepest of some entries, the shallowest first, that has lines of a
kind, with those lines alone. -/
def deepest? (kind : Field) (entries : List Evidence) : Option Evidence :=
  (entries.reverse.find? (·.fields.has kind)).bind fun e =>
    (Evidence.of e.origin e.path (e.fields.only kind)).toOption

/-- What the closest entries contribute: lines of every kind that the own
evidence lacks. -/
def closest (own entries : List Evidence) : List Evidence :=
  (Field.all.filter fun kind => !own.any (·.fields.has kind)).filterMap (deepest? · entries)

/-- Filling in never fails, because an entry fills in only with lines that it
has. -/
theorem fillIn_eq_ok (own entries : List Evidence) :
    fillIn own entries = .ok (closest own entries) := by
  have hpart (kind : Field) : (entries.reverse.find? (·.fields.has kind)).mapM (fun e =>
      Evidence.of e.origin e.path (e.fields.only kind)) = .ok (deepest? kind entries) := by
    rw [deepest?]
    cases hfind : entries.reverse.find? (·.fields.has kind) with
    | none => rfl
    | some e =>
        have hhas : e.fields.has kind = true := by simpa using List.find?_some hfind
        have hany : (e.fields.only kind).any = true := by rwa [Fields.any_only]
        rw [Option.bind_some, Evidence.of_eq_ok hany]
        exact congrArg (some <$> ·) (Evidence.of_eq_ok hany)
  have hparts : ((Field.all.filter fun kind => !own.any (·.fields.has kind)).map
      (deepest? · entries)).filterMap id = closest own entries := by
    rw [List.filterMap_map]
    rfl
  rw [fillIn, mapM_eq_ok fun kind _ => hpart kind]
  exact congrArg Except.ok hparts

/-- The evidence that contributes to a path when no entry overrides. -/
def contributing (path : String) (records : List Evidence) (entries : List Entry) : List Evidence :=
  own records ++ closest (own records) (given path entries .closest) ++
    given path entries .aggregate ++
    if (Entry.applicable entries path).isEmpty then records.filter (·.origin = .deprecated) else []

/-- Resolution never fails, because entries without lines are passed
over. -/
theorem resolve_eq_ok (path : String) (records : List Evidence) (entries : List Entry)
    (options : Options) :
    resolve path records entries options = .ok (
      match (given path entries .override).head? with
      | some whole => combine path { options with unparsable := [] } [whole]
      | none => combine path options (contributing path records entries)) := by
  have hgiven := Entry.mapM_evidence ((Entry.applicable entries path).filter (·.fields.any))
    fun _ h => (List.mem_filter.1 h).2
  simp only [resolve, hgiven, fillIn_eq_ok, bind, Except.bind, pure, Except.pure, contributing,
    given]
  split
  · next h => rw [h]
  · next h => rw [h]

/-- Of the entries only those that match the path matter. -/
theorem resolve_congr {path : String} {entries entries' : List Entry}
    (h : entries.filter (·.isMatch path) = entries'.filter (·.isMatch path))
    (records : List Evidence) (options : Options) :
    resolve path records entries options = resolve path records entries' options := by
  have happlicable : Entry.applicable entries path = Entry.applicable entries' path := by
    rw [Entry.applicable, h, Entry.applicable]
  simp only [resolve, happlicable]

/-- The information about a file has its path. -/
theorem path_of_resolve_eq_ok {path : String} {records : List Evidence} {entries : List Entry}
    {options : Options} {info : FileInfo} (h : resolve path records entries options = .ok info) :
    info.path = path := by
  rw [resolve_eq_ok] at h
  obtain rfl := Except.ok.inj h
  split <;> rfl

/-- Evidence that is given with a strategy is that of an entry with a line. -/
theorem mem_given_iff {strategy : Strategy} {r : Evidence} :
    r ∈ given path entries strategy ↔ ∃ e ∈ Entry.applicable entries path,
      ∃ hany : e.fields.any = true, e.strategy = strategy ∧ r = e.toEvidence hany := by
  simp only [given, List.mem_filter, List.mem_pmap, decide_eq_true_eq]
  constructor
  · rintro ⟨⟨e, ⟨hmem, hany⟩, rfl⟩, hstrategy⟩
    exact ⟨e, hmem, hany, hstrategy, rfl⟩
  · rintro ⟨e, hmem, hany, hstrategy, rfl⟩
    exact ⟨⟨e, ⟨hmem, hany⟩, rfl⟩, hstrategy⟩

theorem mem_given (hplaces : (entries.map Entry.place).Nodup) {strategy : Strategy}
    {r : Evidence} : r ∈ given path entries strategy ↔
      ∃ e, ∃ h : Counts path entries strategy e, r = e.toEvidence h.any := by
  rw [mem_given_iff]
  constructor
  · rintro ⟨e, hmem, hany, hstrategy, rfl⟩
    exact ⟨e, ⟨(Entry.mem_applicable hplaces).1 hmem, hany, hstrategy⟩, rfl⟩
  · rintro ⟨e, h, rfl⟩
    exact ⟨e, (Entry.mem_applicable hplaces).2 h.applies, h.any, h.strategy_eq, rfl⟩

theorem pairwise_given {name : String} (hgiven : ∀ e ∈ entries, e.GivenBy name)
    (strategy : Strategy) :
    (given path entries strategy).Pairwise fun a b => a.origin.rank < b.origin.rank := by
  refine List.Pairwise.filter _ ((List.pairwise_pmap _).2 ?_)
  refine ((Entry.pairwise_applicable hgiven path).filter _).imp ?_
  intro a b hab _ _
  simp only [Entry.toEvidence, Origin.rank]
  omega

/-- The first of the overriding evidence is that of the shallowest entry
that overrides. -/
theorem overrides_of_head?_given {name : String} (hgiven : ∀ e ∈ entries, e.GivenBy name)
    (hplaces : (entries.map Entry.place).Nodup) {r : Evidence}
    (h : (given path entries .override).head? = some r) :
    ∃ e, ∃ he : Overrides path entries e, r = e.toEvidence he.counts.any := by
  obtain ⟨e, he, rfl⟩ := (mem_given hplaces).1 (List.mem_of_head? h)
  refine ⟨e, ⟨he, fun a ha => ?_⟩, rfl⟩
  have hle := le_of_head?_eq_some (pairwise_given hgiven .override) h
    ((mem_given hplaces).2 ⟨a, ha, rfl⟩)
  simpa [Entry.toEvidence, Origin.rank] using hle

theorem eq_of_length_le_one {α : Type} {l : List α} (h : l.length ≤ 1) {a b : α} (ha : a ∈ l)
    (hb : b ∈ l) : a = b := by
  match l with
  | [] => cases ha
  | [c] => rw [List.mem_singleton.1 ha, List.mem_singleton.1 hb]

/-- The evidence of a file itself is found without regard to its order,
when it has one sidecar at most. -/
theorem mem_own (hsidecar : (records.filter (·.origin = .sidecar)).length ≤ 1) {r : Evidence} :
    r ∈ own records ↔ IsOwn records r := by
  unfold own
  cases hs : records.find? (·.origin = .sidecar) with
  | none =>
      have hnone : ∀ s ∈ records, s.origin ≠ .sidecar := by simpa using hs
      constructor
      · intro h
        obtain ⟨hmem, horigin⟩ := List.mem_filter.1 h
        exact ⟨hmem, Or.inr ⟨by simpa using horigin, hnone⟩⟩
      · rintro ⟨hmem, horigin | ⟨horigin, -⟩⟩
        · exact absurd horigin (hnone r hmem)
        · exact List.mem_filter.2 ⟨hmem, by simpa using horigin⟩
  | some s =>
      have hmem : s ∈ records := List.mem_of_find?_eq_some hs
      have horigin : s.origin = .sidecar := by simpa using List.find?_some hs
      constructor
      · intro h
        obtain rfl := List.mem_singleton.1 h
        exact ⟨hmem, Or.inl horigin⟩
      · rintro ⟨hr, hro | ⟨-, hnone⟩⟩
        · exact List.mem_singleton.2 (eq_of_length_le_one hsidecar
            (List.mem_filter.2 ⟨hr, by simpa using hro⟩)
            (List.mem_filter.2 ⟨hmem, by simpa using horigin⟩))
        · exact absurd horigin (hnone s hmem)

/-- Evidence of one kind of lines of an entry. -/
structure IsPart (kind : Field) (e : Entry) (r : Evidence) : Prop where
  source : Source.ofEvidence r = ⟨.entry, e.manifest⟩
  mem_lines : ∀ other x, x ∈ r.fields.lines other ↔ other = kind ∧ x ∈ e.fields.lines kind

theorem isPart_of_deepest? {kind : Field} {e : Entry} (hany : e.fields.any = true)
    {l : List Evidence} (hfind : l.reverse.find? (·.fields.has kind) = some (e.toEvidence hany)) :
    ∃ r, deepest? kind l = some r ∧ IsPart kind e r := by
  have hhas : (e.fields.sorted.only kind).any = true := by
    simpa [Fields.any_only, Entry.toEvidence] using List.find?_some hfind
  refine ⟨⟨.entry e.depth e.strategy, e.manifest, (e.fields.sorted.only kind).sorted,
    by simpa using hhas⟩, ?_, rfl, ?_⟩
  · simp only [deepest?, hfind, Option.bind_some, Entry.toEvidence, Evidence.of_eq_ok hhas]
    rfl
  · intro other x
    simp only [Fields.lines_sorted, mem_sortedUnique, Fields.lines_only]
    split
    · next h => simp [h]
    · next h => simp [h]

/-- The last of the closest evidence with lines of a kind is that of the
entry that fills in for the kind. -/
theorem fillsIn_of_find?_reverse_given {name : String} (hgiven : ∀ e ∈ entries, e.GivenBy name)
    (hplaces : (entries.map Entry.place).Nodup) {kind : Field} {q : Evidence}
    (hlacking : ∀ r, IsOwn records r → r.fields.has kind = false)
    (hq : (given path entries .closest).reverse.find? (·.fields.has kind) = some q) :
    ∃ e, ∃ he : FillsIn path records entries kind e, q = e.toEvidence he.counts.any := by
  obtain ⟨e, he, rfl⟩ := (mem_given hplaces).1
    (List.mem_reverse.1 (List.mem_of_find?_eq_some hq))
  refine ⟨e, ⟨hlacking, he, ?_, fun a ha hhas => ?_⟩, rfl⟩
  · simpa [Entry.toEvidence] using List.find?_some hq
  · have hle := le_of_find?_reverse_eq_some (pairwise_given hgiven .closest) hq
      ((mem_given hplaces).2 ⟨a, ha, rfl⟩) (by simpa [Entry.toEvidence] using hhas)
    simpa [Entry.toEvidence, Origin.rank] using hle

theorem FillsIn.eq {name : String} (hgiven : ∀ e ∈ entries, e.GivenBy name)
    (hplaces : (entries.map Entry.place).Nodup) {kind : Field} {a b : Entry}
    (ha : FillsIn path records entries kind a) (hb : FillsIn path records entries kind b) :
    a = b := by
  have hdepth : a.depth = b.depth :=
    le_antisymm (hb.deepest a ha.counts ha.has) (ha.deepest b hb.counts hb.has)
  exact eq_of_applies_of_depth_eq hgiven hplaces ha.counts.applies hb.counts.applies hdepth

theorem mem_closest {own entries : List Evidence} {r : Evidence} :
    r ∈ closest own entries ↔
      ∃ kind, (∀ s ∈ own, s.fields.has kind = false) ∧ deepest? kind entries = some r := by
  simp [closest, Field.mem_all]

/-- What closest entries contribute are parts of those that fill in for a
kind of lines. -/
theorem exists_fillsIn_of_mem_closest {name : String} (hgiven : ∀ e ∈ entries, e.GivenBy name)
    (hplaces : (entries.map Entry.place).Nodup)
    (hsidecar : (records.filter (·.origin = .sidecar)).length ≤ 1) {r : Evidence}
    (hr : r ∈ closest (own records) (given path entries .closest)) :
    ∃ kind e, FillsIn path records entries kind e ∧ IsPart kind e r := by
  obtain ⟨kind, hlacking, hdeepest⟩ := mem_closest.1 hr
  simp only [mem_own hsidecar] at hlacking
  obtain ⟨q, hq, -⟩ := Option.bind_eq_some_iff.1 hdeepest
  obtain ⟨e, he, rfl⟩ := fillsIn_of_find?_reverse_given hgiven hplaces hlacking hq
  obtain ⟨r', hr', hpart⟩ := isPart_of_deepest? he.counts.any hq
  obtain rfl : r' = r := Option.some.inj (hr'.symm.trans hdeepest)
  exact ⟨kind, e, he, hpart⟩

/-- Every entry that fills in for a kind of lines contributes its part. -/
theorem exists_mem_closest_of_fillsIn {name : String} (hgiven : ∀ e ∈ entries, e.GivenBy name)
    (hplaces : (entries.map Entry.place).Nodup)
    (hsidecar : (records.filter (·.origin = .sidecar)).length ≤ 1) {kind : Field} {e : Entry}
    (he : FillsIn path records entries kind e) :
    ∃ r ∈ closest (own records) (given path entries .closest), IsPart kind e r := by
  have hsome : ((given path entries .closest).reverse.find? (·.fields.has kind)).isSome := by
    refine List.find?_isSome.2 ⟨e.toEvidence he.counts.any, ?_, ?_⟩
    · exact List.mem_reverse.2 ((mem_given hplaces).2 ⟨e, he.counts, rfl⟩)
    · simpa [Entry.toEvidence] using he.has
  obtain ⟨q, hq⟩ := Option.isSome_iff_exists.1 hsome
  obtain ⟨a, ha, rfl⟩ := fillsIn_of_find?_reverse_given hgiven hplaces he.lacking hq
  obtain rfl := ha.eq hgiven hplaces he
  obtain ⟨r, hr, hpart⟩ := isPart_of_deepest? ha.counts.any hq
  refine ⟨r, mem_closest.2 ⟨kind, ?_, hr⟩, hpart⟩
  simpa only [mem_own hsidecar] using he.lacking

theorem isEmpty_applicable_iff (hplaces : (entries.map Entry.place).Nodup) :
    (Entry.applicable entries path).isEmpty = true ↔ ∀ e, ¬ Entry.Applies entries path e := by
  rw [List.isEmpty_iff, List.eq_nil_iff_forall_not_mem]
  exact forall_congr' fun e => not_congr (Entry.mem_applicable hplaces)

/-- Four kinds of evidence contribute. -/
theorem mem_contributing (hplaces : (entries.map Entry.place).Nodup)
    (hsidecar : (records.filter (·.origin = .sidecar)).length ≤ 1) {r : Evidence} :
    r ∈ contributing path records entries ↔
      IsOwn records r ∨ r ∈ closest (own records) (given path entries .closest) ∨
      (∃ e, ∃ h : Counts path entries .aggregate e, r = e.toEvidence h.any) ∨
      StandsIn path records entries r := by
  have hstands : (r ∈ if (Entry.applicable entries path).isEmpty then
      records.filter (·.origin = .deprecated) else []) ↔ StandsIn path records entries r := by
    split
    · next h =>
        simp only [List.mem_filter, decide_eq_true_eq]
        exact ⟨fun ⟨hmem, ho⟩ => ⟨hmem, ho, (isEmpty_applicable_iff hplaces).1 h⟩,
          fun h => ⟨h.mem, h.origin⟩⟩
    · next h =>
        refine ⟨fun h => absurd h List.not_mem_nil, fun hr => absurd ?_ h⟩
        exact (isEmpty_applicable_iff hplaces).2 hr.none_applies
  simp only [contributing, List.mem_append, mem_own hsidecar, hstands, mem_given hplaces, or_assoc]

/-- Combined information has the lines of what contributes to it. -/
theorem isListing_lines_combine {options : Options} (hmerge : options.mergeCopyrights = false)
    (path : String) (contributing : List Evidence) (kind : Field) :
    IsListing Before (fun x => ∃ r ∈ contributing, x ∈ r.fields.lines kind)
      ((combine path options contributing).fields.lines kind) := by
  have hlines : (combine path options contributing).fields.lines kind =
      sortedUnique ((Fields.union (contributing.map Evidence.fields)).lines kind) := by
    simp [combine, hmerge, FileInfo.of]
  rw [hlines]
  exact (isListing_sortedUnique _).congr fun x => by simp

/-- Combined information has the sources of what contributes to it. -/
theorem isListing_sources_combine (path : String) (options : Options)
    (contributing : List Evidence) :
    IsListing Source.Before (fun s => ∃ r ∈ contributing, s = .ofEvidence r)
      (combine path options contributing).sources :=
  (isListing_sources (contributing.map Source.ofEvidence)).congr fun s => by
    simp [eq_comm]

/-- What overriding evidence amounts to has the meaning of the entry it
comes from. -/
theorem meaning_overridden {options : Options} (hmerge : options.mergeCopyrights = false)
    {e : Entry} (he : Overrides path entries e) :
    Meaning path records entries options
      (combine path { options with unparsable := [] } [e.toEvidence he.counts.any]) := by
  refine .overridden e he rfl (fun kind => ?_) ?_ rfl
  · exact (isListing_lines_combine hmerge path _ kind).congr fun x => by simp [Entry.toEvidence]
  · have hsource : Source.ofEvidence (e.toEvidence he.counts.any) = ⟨.entry, e.manifest⟩ := rfl
    simp [combine, FileInfo.of, hsource, List.eraseDups_cons]

/-- Where no entry overrides, what contributes together has the meaning of
the evidence and the entries. -/
theorem meaning_combined {name : String} (hgiven : ∀ e ∈ entries, e.GivenBy name)
    (hplaces : (entries.map Entry.place).Nodup)
    (hsidecar : (records.filter (·.origin = .sidecar)).length ≤ 1) {options : Options}
    (hmerge : options.mergeCopyrights = false) (hno : ∀ e, ¬ Counts path entries .override e) :
    Meaning path records entries options
      (combine path options (contributing path records entries)) := by
  refine .combined hno rfl (fun kind => ?_) ?_ (isListing_sortedUnique _)
  · refine (isListing_lines_combine hmerge path _ kind).congr fun x => ?_
    simp only [mem_contributing hplaces hsidecar]
    constructor
    · rintro ⟨r, hr | hr | ⟨e, he, rfl⟩ | hr, hx⟩
      · exact .own r hr hx
      · obtain ⟨other, e, he, hpart⟩ := exists_fillsIn_of_mem_closest hgiven hplaces hsidecar hr
        obtain ⟨rfl, hx⟩ := (hpart.mem_lines kind x).1 hx
        exact .closest e he hx
      · exact .aggregate e he (by simpa [Entry.toEvidence] using hx)
      · exact .deprecated r hr hx
    · rintro (⟨r, hr, hx⟩ | ⟨e, he, hx⟩ | ⟨e, he, hx⟩ | ⟨r, hr, hx⟩)
      · exact ⟨r, .inl hr, hx⟩
      · obtain ⟨r, hr, hpart⟩ := exists_mem_closest_of_fillsIn hgiven hplaces hsidecar he
        exact ⟨r, .inr (.inl hr), (hpart.mem_lines kind x).2 ⟨rfl, hx⟩⟩
      · refine ⟨e.toEvidence he.any, .inr (.inr (.inl ⟨e, he, rfl⟩)), ?_⟩
        simpa [Entry.toEvidence] using hx
      · exact ⟨r, .inr (.inr (.inr hr)), hx⟩
  · refine (isListing_sources_combine path options _).congr fun s => ?_
    simp only [mem_contributing hplaces hsidecar]
    constructor
    · rintro ⟨r, hr | hr | ⟨e, he, rfl⟩ | hr, rfl⟩
      · exact .own r hr
      · obtain ⟨kind, e, he, hpart⟩ := exists_fillsIn_of_mem_closest hgiven hplaces hsidecar hr
        rw [hpart.source]
        exact .closest kind e he
      · exact .aggregate e he
      · exact .deprecated r hr
    · rintro (⟨r, hr⟩ | ⟨kind, e, he⟩ | ⟨e, he⟩ | ⟨r, hr⟩)
      · exact ⟨r, .inl hr, rfl⟩
      · obtain ⟨r, hr, hpart⟩ := exists_mem_closest_of_fillsIn hgiven hplaces hsidecar he
        exact ⟨r, .inr (.inl hr), hpart.source.symm⟩
      · exact ⟨e.toEvidence he.any, .inr (.inr (.inl ⟨e, he, rfl⟩)), rfl⟩
      · exact ⟨r, .inr (.inr (.inr hr)), rfl⟩

/-- **Resolution returns the one piece of information that evidence and
entries mean**, for entries of manifests of one name, each at its own
place, and evidence with one sidecar at most. -/
theorem resolve_returns_meaning {name : String} (path : String) (records : List Evidence)
    (entries : List Entry) (options : Options) (hgiven : ∀ e ∈ entries, e.GivenBy name)
    (hplaces : (entries.map Entry.place).Nodup)
    (hsidecar : (records.filter (·.origin = .sidecar)).length ≤ 1)
    (hmerge : options.mergeCopyrights = false) :
    ∃ info, resolve path records entries options = .ok info ∧
      ∀ other, Meaning path records entries options other ↔ other = info := by
  have hmeaning : ∃ info, resolve path records entries options = .ok info ∧
      Meaning path records entries options info := by
    rw [resolve_eq_ok]
    cases hhead : (given path entries .override).head? with
    | some whole =>
        obtain ⟨e, he, rfl⟩ := overrides_of_head?_given hgiven hplaces hhead
        exact ⟨_, rfl, meaning_overridden hmerge he⟩
    | none =>
        have hnone := List.head?_eq_none_iff.1 hhead
        have hno : ∀ e, ¬ Counts path entries .override e := by
          intro e he
          have hmem := (mem_given hplaces).2 ⟨e, he, rfl⟩
          rw [hnone] at hmem
          cases hmem
        exact ⟨_, rfl, meaning_combined hgiven hplaces hsidecar hmerge hno⟩
  obtain ⟨info, hresolve, hinfo⟩ := hmeaning
  refine ⟨info, hresolve, fun other => ⟨fun h => h.unique hgiven hplaces hinfo, ?_⟩⟩
  rintro rfl
  exact hinfo

/-- The manifest of a project, and one below it with an entry that matches
the same path, next to a file with a sidecar and a header. -/
theorem resolve_returns_meaning_vendored :
    let entries :=
      [Manifest.entryOf "REUSE.toml" ⟨["**"], .closest, ["2010 Project"], ["MIT"], []⟩ 0,
        Manifest.entryOf "REUSE.toml" ⟨["*.c"], .override, [], ["Zlib"], []⟩ 1,
        Manifest.entryOf "vendor/REUSE.toml" ⟨["*.c"], .aggregate, [], ["BSD-2-Clause"], []⟩ 0]
    let records : List Evidence :=
      [⟨.header, "vendor/lib.c", ⟨["2001 Jane"], [], []⟩, rfl⟩,
        ⟨.sidecar, "vendor/lib.c.license", ⟨["2002 John"], [], []⟩, rfl⟩]
    (∀ e ∈ entries, e.GivenBy "REUSE.toml") ∧ (entries.map Entry.place).Nodup ∧
      (records.filter (·.origin = .sidecar)).length ≤ 1 ∧
      ∃ info, resolve "vendor/lib.c" records entries {} = .ok info ∧
        ∀ other, Meaning "vendor/lib.c" records entries {} other ↔ other = info := by
  intro entries records
  have hgiven : ∀ e ∈ entries, e.GivenBy "REUSE.toml" := by
    simp only [entries, List.mem_cons, List.not_mem_nil, or_false]
    rintro e (rfl | rfl | rfl) <;> exact ⟨by decide, by decide⟩
  have hplaces : (entries.map Entry.place).Nodup := by decide
  have hsidecar : (records.filter (·.origin = .sidecar)).length ≤ 1 := by decide
  exact ⟨hgiven, hplaces, hsidecar,
    resolve_returns_meaning "vendor/lib.c" records entries {} hgiven hplaces hsidecar rfl⟩

end Resolution

end LicenseAudit
