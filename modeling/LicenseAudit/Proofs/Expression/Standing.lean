import LicenseAudit.Proofs.Expression.Detail
import LicenseAudit.Proofs.Expression.Identifier
import LicenseAudit.Proofs.Expression.SyntaxError

/-!
# The standing of a license

A license may occur in an expression with a plus sign and without one, but it is
reported once, and the first occurrence decides its standing.  The plus sign
makes a difference only for a license that is deprecated in its later versions
alone (`Catalog.PlusDecides`).

Details of two lists of atoms, one after the other, are a left-biased union, so
their order makes no difference exactly if the lists are **compatible**: where
both speak of a subject they give it one standing
(`details_append_comm_iff`).  So the two operands of an expression may change
places unless they begin to speak of such a license differently
(`standing_of_first`).
-/

namespace LicenseAudit

open Text

namespace Catalog

variable (catalog : Catalog)

/-- Two lists of atoms are **compatible** when they give one standing to every
subject that both have. -/
def Compatible (as bs : List Atom) : Prop :=
  ∀ s a b, as.find? (·.subject = s) = some a → bs.find? (·.subject = s) = some b →
    catalog.standing a = catalog.standing b

variable {catalog} {as bs : List Atom} {a b : Atom} {d : AtomDetail} {s : Subject}

theorem Compatible.symm (h : catalog.Compatible as bs) : catalog.Compatible bs as :=
  fun s b a hb ha => (h s a b ha hb).symm

theorem subject_of_find? (h : as.find? (·.subject = s) = some a) : a.subject = s := by
  simpa using List.find?_some h

/-- A detail is told by its subject and its standing. -/
theorem detail_eq_detail_iff :
    catalog.detail a = catalog.detail b ↔
      a.subject = b.subject ∧ catalog.standing a = catalog.standing b := by
  simp [detail, Atom.subject, and_assoc]

/-- What is reported of compatible lists is reported of them in either
order. -/
theorem Compatible.reports_append (h : catalog.Compatible as bs)
    (hd : catalog.Reports (as ++ bs) d) : catalog.Reports (bs ++ as) d := by
  obtain ⟨a, hfind, rfl⟩ := hd
  rw [List.find?_append] at hfind
  rw [Reports, List.find?_append]
  cases has : as.find? (·.subject = (catalog.detail a).subject) with
  | none =>
      rw [has, Option.none_or] at hfind
      exact ⟨a, by rw [hfind, Option.some_or], rfl⟩
  | some a' =>
      rw [has, Option.some_or] at hfind
      obtain rfl := Option.some.inj hfind
      cases hbs : bs.find? (·.subject = (catalog.detail a').subject) with
      | none => exact ⟨a', rfl, rfl⟩
      | some b =>
          have hsubject : b.subject = a'.subject := subject_of_find? hbs
          exact ⟨b, rfl, detail_eq_detail_iff.2 ⟨hsubject.symm, h _ a' b has hbs⟩⟩

/-- **The order of two lists of atoms makes no difference exactly if they are
compatible.** -/
theorem details_append_comm_iff :
    catalog.details (as ++ bs) = catalog.details (bs ++ as) ↔ catalog.Compatible as bs := by
  have hlisting := catalog.isListing_details (as ++ bs)
  have hlisting' := catalog.isListing_details (bs ++ as)
  constructor
  · intro h s a b ha hb
    have hreports : catalog.Reports (as ++ bs) (catalog.detail a) := by
      refine ⟨a, ?_, rfl⟩
      rw [List.find?_append, show (catalog.detail a).subject = s from subject_of_find? ha, ha,
        Option.some_or]
    rw [← hlisting.mem_iff, h, hlisting'.mem_iff] at hreports
    obtain ⟨c, hfind, hdetail⟩ := hreports
    rw [List.find?_append, show (catalog.detail a).subject = s from subject_of_find? ha, hb,
      Option.some_or] at hfind
    obtain rfl := Option.some.inj hfind
    exact (detail_eq_detail_iff.1 hdetail).2
  · intro h
    exact hlisting.unique (fun _ _ hde => hde.asymm)
      (hlisting'.congr fun d => ⟨h.symm.reports_append, h.reports_append⟩)

/-- The plus sign decides about a license when it is no reference and is
deprecated in its later versions alone. -/
structure PlusDecides (catalog : Catalog) (id : String) : Prop where
  not_reference : isReference id = false
  not_deprecated : catalog.isDeprecated id = false
  later : catalog.isDeprecated (id ++ "+") = true

/-- When a license that is no reference is deprecated. -/
theorem standing_eq_deprecated_iff (hrole : a.role = .license) (href : isReference a.id = false) :
    catalog.standing a = .deprecated ↔
      catalog.isDeprecated a.id = true ∨
        a.orLater = true ∧ catalog.isDeprecated (a.id ++ "+") = true := by
  simp only [standing, hrole, href, Bool.false_eq_true, if_false, Bool.or_eq_true,
    Bool.and_eq_true]
  split
  · next h => simp [h]
  · next h => split <;> simp [h]

/-- A plus sign that does not decide makes no difference. -/
theorem standing_later_eq {id : String} (h : ¬ catalog.PlusDecides id) :
    catalog.standing ⟨id, .license, true⟩ = catalog.standing ⟨id, .license, false⟩ := by
  cases href : isReference id with
  | true => simp [standing, href]
  | false =>
      cases hdeprecated : catalog.isDeprecated id with
      | true => simp [standing, href, hdeprecated]
      | false =>
          cases hlater : catalog.isDeprecated (id ++ "+") with
          | true => exact absurd ⟨href, hdeprecated, hlater⟩ h
          | false => simp [standing, href, hdeprecated, hlater]

theorem PlusDecides.standing_later_ne {id : String} (h : catalog.PlusDecides id) :
    catalog.standing ⟨id, .license, true⟩ ≠ catalog.standing ⟨id, .license, false⟩ := by
  have hlater : catalog.standing ⟨id, .license, true⟩ = .deprecated :=
    (standing_eq_deprecated_iff rfl h.not_reference).2 (.inr ⟨rfl, h.later⟩)
  rw [hlater, ne_comm, Ne, standing_eq_deprecated_iff rfl h.not_reference]
  simp [h.not_deprecated]

/-- Two occurrences of a subject have one standing unless they differ in a plus
sign that decides. -/
theorem standing_eq_standing_iff (hsubject : a.subject = b.subject) :
    catalog.standing a = catalog.standing b ↔
      (a.role = .license → catalog.PlusDecides a.id → a.orLater = b.orLater) := by
  obtain ⟨id, role, later⟩ := a
  obtain ⟨id', role', later'⟩ := b
  obtain ⟨rfl, rfl⟩ := Subject.mk.inj hsubject
  cases role with
  | exception => simp [standing]
  | license =>
      by_cases hplus : catalog.PlusDecides id
      · have hne := hplus.standing_later_ne
        cases later <;> cases later' <;> simp [hplus, hne, hne.symm]
      · have heq := standing_later_eq hplus
        cases later <;> cases later' <;> simp [hplus, heq]

/-- Lists of atoms are compatible when their first occurrences of a license that
the plus sign decides about agree in it. -/
theorem compatible_iff :
    catalog.Compatible as bs ↔ ∀ id p q, catalog.PlusDecides id →
      as.find? (·.subject = ⟨id, .license⟩) = some p →
        bs.find? (·.subject = ⟨id, .license⟩) = some q → p.orLater = q.orLater := by
  constructor
  · intro h id p q hplus hp hq
    have hsubject : p.subject = ⟨id, .license⟩ := subject_of_find? hp
    have hsame : p.subject = q.subject := hsubject.trans (subject_of_find? hq).symm
    obtain ⟨hid, hrole⟩ := Subject.mk.inj hsubject
    rw [← hid] at hplus
    exact (standing_eq_standing_iff hsame).1 (h _ p q hp hq) hrole hplus
  · intro h s a b ha hb
    have hsubject : a.subject = s := subject_of_find? ha
    have hsame : a.subject = b.subject := hsubject.trans (subject_of_find? hb).symm
    refine (standing_eq_standing_iff hsame).2 fun hrole hplus => ?_
    have hs : s = ⟨a.id, .license⟩ := by rw [← hsubject, Atom.subject, hrole]
    rw [hs] at ha hb
    exact h a.id a b hplus ha hb

end Catalog

namespace Expression

/-- The first occurrence of a license in an expression. -/
def firstLicense? (e : Expression) (id : String) : Option Atom :=
  e.atoms.find? (·.subject = ⟨id, .license⟩)

/-- Two texts in parentheses with a keyword between them. -/
def combined (keyword : Token) (a b : String) : String :=
  "(" ++ a ++ ") " ++ keyword.text ++ " (" ++ b ++ ")"

variable {before : Option Token} {ts us : List Token} {cs rest gap : List Char}

/-- Behind a parenthesis that opens a group a text spells what it spells at the
start. -/
theorem Spells.behind_opening (h : Spells none ts cs) : Spells (some .opening) ts cs := by
  cases h with
  | nil hgap => exact .nil hgap
  | cons hlexical hgap hrest =>
      refine .cons hlexical ⟨hgap.blank, fun hb => absurd hb (not_isWord_some rfl), ?_⟩ hrest
      intro hplus
      obtain ⟨-, id, hid⟩ := hgap.plus hplus
      cases hid

/-- A parenthesis may be closed behind all tokens. -/
theorem Spells.append_closing (h : Spells before ts cs) (hrest : Spells (some .closing) us rest) :
    Spells before (ts ++ .closing :: us) (cs ++ ')' :: rest) := by
  induction h with
  | nil hgap =>
      have hlexical : Token.closing.IsLexical := trivial
      exact .cons hlexical ⟨hgap, nofun, nofun⟩ hrest
  | cons hlexical hgap _ ih =>
      rw [List.append_assoc, List.append_assoc]
      exact .cons hlexical hgap ih

/-- A text in parentheses may stand anywhere. -/
theorem Spells.group (h : Spells none ts cs) (hrest : Spells (some .closing) us rest)
    (hgap : ∀ c ∈ gap, isBlank c = true) :
    Spells before (.opening :: (ts ++ .closing :: us)) (gap ++ '(' :: (cs ++ ')' :: rest)) := by
  have hlexical : Token.opening.IsLexical := trivial
  exact .cons hlexical ⟨hgap, nofun, nofun⟩ (h.behind_opening.append_closing hrest)

theorem spells_combined {keyword : Token} (hkeyword : keyword = .or ∨ keyword = .and)
    {a b : String} (ha : Spells none ts a.toList) (hb : Spells none us b.toList) :
    Spells none (.opening :: (ts ++ [.closing]) ++ keyword :: .opening :: (us ++ [.closing]))
      (combined keyword a b).toList := by
  have hlexical : keyword.IsLexical ∧ keyword ≠ .plus := by
    rcases hkeyword with rfl | rfl <;> exact ⟨trivial, nofun⟩
  have hblank : ∀ c ∈ [' '], isBlank c = true := by simp [isBlank]
  have hend : Spells (some .closing) [] [] := .nil (List.forall_mem_nil _)
  have hright : Spells (some keyword) (.opening :: (us ++ [.closing]))
      ([' '] ++ '(' :: (b.toList ++ [')'])) := hb.group hend hblank
  have hmiddle : Spells (some .closing) (keyword :: .opening :: (us ++ [.closing]))
      ([' '] ++ (keyword.text.toList ++ ([' '] ++ '(' :: (b.toList ++ [')'])))) :=
    .cons hlexical.1 (.of_blank hlexical.2 hblank (List.cons_ne_nil _ _)) hright
  have hleft : Spells none _ _ := ha.group hmiddle (List.forall_mem_nil _)
  simpa [combined] using hleft

/-- The combination of two texts that are expressions is one with the atoms of
both. -/
theorem exists_parse_combined {keyword : Token} (hkeyword : keyword = .or ∨ keyword = .and)
    {a b : String} {x y : Expression} (ha : parse a = .ok x) (hb : parse b = .ok y) :
    ∃ e, parse (combined keyword a b) = .ok e ∧ e.atoms = x.atoms ++ y.atoms := by
  obtain ⟨ts, hts, hspells⟩ := renders_of_parse ha
  obtain ⟨us, hus, hspells'⟩ := renders_of_parse hb
  have hcombined := spells_combined hkeyword hspells hspells'
  rcases hkeyword with rfl | rfl
  · exact ⟨_, parse_of_renders ⟨_, .either hts.group.primary.operand.conjunction
      hus.group.primary.operand, hcombined⟩, rfl⟩
  · exact ⟨_, parse_of_renders ⟨_, (hts.group.primary.operand.both
      hus.group.primary).conjunction, hcombined⟩, rfl⟩

end Expression

open Expression

/-- **The first occurrence of a license decides its standing.**  A license that
is no reference is deprecated if it is deprecated itself, or in its later
versions and its first occurrence has a plus sign.  Two operands may change
places exactly if no license that the plus sign decides about has one at its
first occurrence in the one of them and none in the other. -/
theorem standing_of_first (catalog : Catalog) (earlier : List String) :
    (∀ text e, parse text = .ok e → ∀ d ∈ (catalog.answer earlier text).details,
      d.role = .license → isReference d.id = false →
        (d.standing = .deprecated ↔ catalog.isDeprecated d.id = true ∨
          catalog.isDeprecated (d.id ++ "+") = true ∧
            ∃ a, e.firstLicense? d.id = some a ∧ a.orLater = true)) ∧
    ∀ keyword, keyword = .or ∨ keyword = .and →
      ∀ a b x y, parse a = .ok x → parse b = .ok y →
        (∃ e, parse (combined keyword a b) = .ok e) ∧
        ((catalog.answer earlier (combined keyword a b)).details =
            (catalog.answer earlier (combined keyword b a)).details ↔
          ∀ id p q, catalog.PlusDecides id → x.firstLicense? id = some p →
            y.firstLicense? id = some q → p.orLater = q.orLater) := by
  constructor
  · intro text e h d hd hrole href
    rw [catalog.details_answer h, (catalog.isListing_details e.atoms).mem_iff] at hd
    obtain ⟨a, hfind, rfl⟩ := hd
    have hsubject : (catalog.detail a).subject = ⟨a.id, .license⟩ := congrArg (Subject.mk a.id) hrole
    have hfirst : e.firstLicense? a.id = some a := by rw [firstLicense?, ← hsubject, hfind]
    refine (Catalog.standing_eq_deprecated_iff hrole href).trans (or_congr_right ?_)
    simp only [Catalog.detail, hfirst, Option.some.injEq, exists_eq_left']
    exact and_comm
  · intro keyword hkeyword a b x y ha hb
    obtain ⟨e, he, hatoms⟩ := exists_parse_combined hkeyword ha hb
    obtain ⟨e', he', hatoms'⟩ := exists_parse_combined hkeyword hb ha
    refine ⟨⟨e, he⟩, ?_⟩
    rw [catalog.details_answer he, catalog.details_answer he', hatoms, hatoms',
      Catalog.details_append_comm_iff, Catalog.compatible_iff]
    rfl

/-- A license that is deprecated in its later versions alone. -/
def laterDeprecated : Catalog :=
  ⟨["a"], [], ["a+"]⟩

theorem standing_of_first_later :
    let d : AtomDetail := ⟨"a", .license, .deprecated⟩
    let x : Expression := .either (.license ⟨"a", true⟩) (.license ⟨"a", false⟩)
    let y : Expression := .license ⟨"a", true⟩
    (parse "a+ OR a" = .ok x ∧ d ∈ (laterDeprecated.answer [] "a+ OR a").details ∧
      d.role = .license ∧ isReference d.id = false ∧
        (d.standing = .deprecated ↔ laterDeprecated.isDeprecated d.id = true ∨
          laterDeprecated.isDeprecated (d.id ++ "+") = true ∧
            ∃ a, x.firstLicense? d.id = some a ∧ a.orLater = true)) ∧
      parse "a+" = .ok y ∧
        (∃ e, parse (combined .and "a+ OR a" "a+") = .ok e) ∧
        ((laterDeprecated.answer [] (combined .and "a+ OR a" "a+")).details =
            (laterDeprecated.answer [] (combined .and "a+" "a+ OR a")).details ↔
          ∀ id p q, laterDeprecated.PlusDecides id → x.firstLicense? id = some p →
            y.firstLicense? id = some q → p.orLater = q.orLater) := by
  intro d x y
  have hx : parse "a+ OR a" = .ok x := by decide +kernel
  have hy : parse "a+" = .ok y := by decide +kernel
  have hd : d ∈ (laterDeprecated.answer [] "a+ OR a").details := by decide +kernel
  have href : isReference d.id = false := by decide +kernel
  obtain ⟨hstanding, hcombined⟩ := standing_of_first laterDeprecated []
  exact ⟨⟨hx, hd, rfl, href, hstanding _ x hx d hd rfl href⟩, hy,
    hcombined .and (.inr rfl) _ _ x y hx hy⟩

/-- **A plus sign at a later occurrence goes unnoticed**, so operands may not
always change places. -/
theorem laterPlus_unnoticed :
    parse "a OR a+" = .ok (.either (.license ⟨"a", false⟩) (.license ⟨"a", true⟩)) ∧
      isReference "a" = false ∧ laterDeprecated.isDeprecated "a+" = true ∧
      (laterDeprecated.answer [] "a OR a+").details = [⟨"a", .license, .valid⟩] ∧
      (laterDeprecated.answer [] (combined .or "a" "a+")).details ≠
        (laterDeprecated.answer [] (combined .or "a+" "a")).details := by
  decide +kernel

end LicenseAudit
