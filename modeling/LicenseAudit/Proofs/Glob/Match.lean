import LicenseAudit.Proofs.Glob.Variant

/-!
# Matching a pattern

A path is in the **language** of a pattern when the segments of the pattern describe
its names.  A pattern whose segments are literal matches only paths of its language,
and matches all of them when its variants have room for their sections
(`isMatch_ofSource`).  An **ordinary** pattern, without backslashes and signs and with
few double stars, matches exactly the paths of its language
(`isMatch_iff_inLanguage`).

Other patterns may differ from their languages: a parenthesis after a star is
compared together with its backslash (`not_isMatch_parenthesis`), a bar behind a
backslash separates alternatives, and sections that are not balanced are missed.
-/

namespace LicenseAudit.Glob

open Text

variable {ls : List Letter} {ss e segments v : List (List Letter)} {cs : List Char}
variable {p : Part} {ps qs xs back : List Part} {names : List (List Char)}

theorem lettersOf_eq_nil_iff : lettersOf cs = [] ↔ cs = [] := by
  fun_cases lettersOf cs <;> simp

/-- A character that is no star stands for itself. -/
theorem eq_of_char?_ofChar {c d : Char} (h : (Letter.ofChar c).char? = some d) : c = d := by
  unfold Letter.ofChar at h
  split at h
  · cases h
  · split at h <;> exact Option.some.inj h

/-- A dot without a backslash is a dot of the source. -/
theorem lettersOf_eq_dot_cons (h : lettersOf cs = .plain '.' :: ls) :
    ∃ rest, cs = '.' :: rest ∧ lettersOf rest = ls := by
  revert h
  fun_cases lettersOf cs with
  | case1 => exact nofun
  | case2 => exact fun h => absurd (List.cons.inj h).1 (by decide)
  | case3 c cs => exact fun h => nomatch (List.cons.inj h).1
  | case4 c cs =>
      intro h
      obtain ⟨hletter, hrest⟩ := List.cons.inj h
      have hc : c = '.' := eq_of_char?_ofChar (by rw [hletter]; rfl)
      exact ⟨cs, by rw [hc], hrest⟩

/-- The characters of the letters are those of the source. -/
theorem mem_of_mem_lettersOf {l : Letter} {c : Char} (h : l ∈ lettersOf cs) (hc : l.char? = some c) :
    c ∈ cs := by
  fun_induction lettersOf cs with
  | case1 => cases h
  | case2 =>
      obtain rfl := List.mem_singleton.1 h
      exact List.mem_singleton.2 (Option.some.inj hc).symm
  | case3 d cs ih =>
      rcases List.mem_cons.1 h with rfl | h
      · simp [Option.some.inj hc]
      · simp [ih h]
  | case4 d cs _ _ ih =>
      rcases List.mem_cons.1 h with rfl | h
      · simp [eq_of_char?_ofChar hc]
      · simp [ih h]

theorem dropInnerEmpty_eq {α : Type} {segments : List (List α)} (h : [] ∉ segments) :
    dropInnerEmpty segments = segments := by
  match segments with
  | [] => rfl
  | first :: rest =>
      rcases List.eq_nil_or_concat' rest with rfl | ⟨inner, last, rfl⟩
      · rfl
      · have hinner : inner.filter (!·.isEmpty) = inner := by
          refine List.filter_eq_self.2 fun s hs => ?_
          have hne : s ≠ [] := fun he => h (by simp [← he, hs])
          simpa using hne
        simp [dropInnerEmpty, hinner]

/-- A globstar next to another one adds nothing. -/
theorem fits_globstar_globstar :
    Fits (.globstar :: .globstar :: ps) names ↔ Fits (.globstar :: ps) names := by
  simp only [fits_globstar_cons]
  constructor
  · rintro ⟨run, _, rfl, -, run', rest, rfl, hrun, h⟩
    refine ⟨run ++ run', rest, by simp, fun hps hnil => hrun hps ?_, h⟩
    exact (List.append_eq_nil_iff.1 hnil).2
  · rintro ⟨run, rest, rfl, hrun, h⟩
    exact ⟨[], _, rfl, nofun, run, rest, rfl, hrun, h⟩

/-- Parts that fit the same names fit the same names after others. -/
theorem fits_append_congr (h : ∀ names, Fits ps names ↔ Fits qs names) (hnil : ps = [] ↔ qs = []) :
    Fits (xs ++ ps) names ↔ Fits (xs ++ qs) names := by
  induction xs generalizing names with
  | nil => exact h names
  | cons x xs ih =>
      have hend : xs ++ ps = [] ↔ xs ++ qs = [] := by simp [hnil]
      cases x with
      | globstar => simp only [List.cons_append, fits_globstar_cons, ih, hend]
      | segment ls => simp only [List.cons_append, fits_segment_cons, ih]

/-- One more part counts, unless it is a step up. -/
theorem fits_pushPart (hp : p ≠ upward) :
    Fits ((pushPart back p).reverse ++ ps) names ↔ Fits (back.reverse ++ p :: ps) names := by
  cases back with
  | nil => rfl
  | cons q rest =>
      rw [pushPart]
      split
      · next hboth =>
          obtain ⟨rfl, rfl⟩ := hboth
          rw [List.reverse_cons, List.append_assoc, List.append_assoc]
          exact fits_append_congr (fun _ => fits_globstar_globstar.symm) (by simp)
      · rw [if_neg fun h => hp h.1, List.reverse_cons, List.append_assoc]
        rfl

theorem fits_foldl_pushPart (hps : upward ∉ ps) :
    Fits (ps.foldl pushPart back).reverse names ↔ Fits (back.reverse ++ ps) names := by
  induction ps generalizing back with
  | nil => rw [List.foldl_nil, List.append_nil]
  | cons p ps ih =>
      obtain ⟨hp, hrest⟩ := not_or.1 (mt List.mem_cons.2 hps)
      rw [List.foldl_cons, ih hrest, fits_pushPart (Ne.symm hp)]

theorem pushPart_ne_nil (hp : p ≠ upward) : pushPart back p ≠ [] := by
  cases back with
  | nil => exact List.cons_ne_nil _ _
  | cons q rest =>
      rw [pushPart, if_neg fun h : p = upward ∧ _ => hp h.1]
      split <;> exact List.cons_ne_nil _ _

theorem foldl_pushPart_ne_nil (hps : upward ∉ ps) (h : back ≠ [] ∨ ps ≠ []) :
    ps.foldl pushPart back ≠ [] := by
  induction ps generalizing back with
  | nil => exact h.resolve_right (not_not_intro rfl)
  | cons p ps ih =>
      obtain ⟨hp, hrest⟩ := not_or.1 (mt List.mem_cons.2 hps)
      exact ih hrest (.inl (pushPart_ne_nil (Ne.symm hp)))

theorem standApart_pushPart (h : StandApart back) : StandApart (pushPart back p) := by
  cases back with
  | nil => exact fun hside => absurd hside.length_le (by simp [pushPart])
  | cons q rest =>
      rw [pushPart]
      split
      · exact h
      · next hboth =>
          split
          · exact fun hside => h (hside.trans (List.infix_cons (List.infix_refl rest)))
          · intro hside
            rcases List.infix_cons_iff.1 hside with hprefix | hside
            · obtain ⟨hp, hprefix⟩ := List.cons_prefix_cons.1 hprefix
              exact hboth ⟨hp.symm, (List.cons_prefix_cons.1 hprefix).1.symm⟩
            · exact h hside

theorem standApart_foldl_pushPart (h : StandApart back) : StandApart (ps.foldl pushPart back) := by
  induction ps generalizing back with
  | nil => exact h
  | cons p ps ih => exact ih (standApart_pushPart h)

/-- The parts of a variant fit the names that its segments fit. -/
theorem fits_partsOf (hempty : [] ∉ v) (hupward : [.plain '.', .plain '.'] ∉ v) (hv : v ≠ []) :
    Fits (partsOf v) names ↔ Fits (v.map Part.ofLetters) names := by
  have hparts : upward ∉ v.map Part.ofLetters := by
    intro h
    obtain ⟨ls, hls, he⟩ := List.mem_map.1 h
    unfold Part.ofLetters at he
    split at he
    · cases he
    · exact hupward (Part.segment.inj he ▸ hls)
  have hne : (v.map Part.ofLetters).foldl pushPart [] ≠ [] :=
    foldl_pushPart_ne_nil hparts (.inr (by simpa using hv))
  rw [partsOf, dropInnerEmpty_eq hempty, if_neg (by simpa using hne), fits_foldl_pushPart hparts]
  rfl

/-- Globstars in a row are one part. -/
theorem standApart_partsOf (v : List (List Letter)) : StandApart (partsOf v) := by
  have hnil : StandApart [] := fun hside => absurd hside.length_le (by decide)
  rw [partsOf]
  split
  · exact fun hside => absurd hside.length_le (by decide)
  · exact fun hside => standApart_foldl_pushPart hnil (List.reverse_infix.1 hside)

/-- The segments of a crossing have a star, unless it is the segment itself. -/
theorem eq_or_star_mem_of_mem_crossings (h : e ∈ crossings ls) :
    e = [ls] ∨ ∀ s ∈ e, .star ∈ s := by
  induction ls using crossings.induct generalizing e with
  | case1 => exact .inl (List.mem_singleton.1 h)
  | case2 ls ih =>
      obtain ⟨s, ss, hmem, he⟩ := mem_crossings_double.1 h
      have hrest : ∀ s ∈ ss, .star ∈ s := by
        rcases ih hmem with heq | hstars
        · obtain ⟨-, rfl⟩ := List.cons.inj heq
          simp
        · exact (List.forall_mem_cons.1 hstars).2
      rcases he with rfl | rfl
      · exact .inr (by simpa using hrest)
      · exact .inr (by simpa using hrest)
  | case3 l ls hsingle ih =>
      obtain ⟨s, ss, hmem, rfl⟩ := (mem_crossings_cons (head?_ne_of_single hsingle)).1 h
      rcases ih hmem with heq | hstars
      · obtain ⟨rfl, rfl⟩ := List.cons.inj heq
        exact .inl rfl
      · obtain ⟨hs, hrest⟩ := List.forall_mem_cons.1 hstars
        exact .inr (List.forall_mem_cons.2 ⟨List.mem_cons_of_mem l hs, hrest⟩)

/-- The segments of a variant are those of the source or have a star. -/
theorem mem_or_star_mem_of_mem_variantsOf {s : List Letter} (h : v ∈ variantsOf segments)
    (hs : s ∈ v) : s ∈ segments ∨ .star ∈ s := by
  induction segments generalizing v with
  | nil =>
      obtain rfl := List.mem_singleton.1 h
      cases hs
  | cons ls segments ih =>
      obtain ⟨e, he, v', hv', rfl⟩ := mem_variantsOf_cons.1 h
      rcases List.mem_append.1 hs with hs | hs
      · have hexpand : e = [ls] ∨ ∀ s ∈ e, .star ∈ s := by
          unfold expansions at he
          split at he
          · exact .inl (List.mem_singleton.1 he)
          · exact eq_or_star_mem_of_mem_crossings he
        rcases hexpand with rfl | hstars
        · exact .inl (List.mem_singleton.1 hs ▸ List.mem_cons_self)
        · exact .inr (hstars s hs)
      · exact (ih hv' hs).imp_left (List.mem_cons_of_mem ls)

/-- The segments of a source. -/
def segmentsOf (source : String) : List (List Letter) :=
  (pieces '/' source.toList).map lettersOf

/-- A path is in the **language** of a source when the segments of the source
describe its names. -/
def InLanguage (source path : String) : Prop :=
  Describes (segmentsOf source) (pieces '/' path.toList)

/-- A path below a folder consists of names. -/
theorem areNames_of_isPlace {path : String} (h : Path.IsPlace path) :
    AreNames (pieces '/' path.toList) := by
  intro name hname
  exact Path.isPlace_iff.1 h _ (List.mem_map_of_mem hname)

/-- The segments of a variant of a source are not empty and lead nowhere up. -/
theorem not_mem_of_mem_variantsOf {source : String} (hsource : Path.IsPlace source)
    (h : v ∈ variantsOf (segmentsOf source)) : [] ∉ v ∧ [.plain '.', .plain '.'] ∉ v := by
  have hname {piece} (hpiece : piece ∈ pieces '/' source.toList) :
      Path.IsName (String.ofList piece) := areNames_of_isPlace hsource piece hpiece
  constructor
  · intro hs
    rcases mem_or_star_mem_of_mem_variantsOf h hs with hmem | hstar
    · obtain ⟨piece, hpiece, hletters⟩ := List.mem_map.1 hmem
      obtain rfl := lettersOf_eq_nil_iff.1 hletters
      exact (hname hpiece).ne_empty rfl
    · cases hstar
  · intro hs
    rcases mem_or_star_mem_of_mem_variantsOf h hs with hmem | hstar
    · obtain ⟨piece, hpiece, hletters⟩ := List.mem_map.1 hmem
      obtain ⟨rest, rfl, hrest⟩ := lettersOf_eq_dot_cons hletters
      obtain ⟨nothing, rfl, hnothing⟩ := lettersOf_eq_dot_cons hrest
      obtain rfl := lettersOf_eq_nil_iff.1 hnothing
      exact (hname hpiece).ne_above rfl
    · exact absurd hstar (by decide)

/-- The language of a source is what the parts of one of its variants fit. -/
theorem inLanguage_iff {source path : String} (hsource : Path.IsPlace source)
    (hstars : ∀ ls ∈ segmentsOf source, HasNoTriple ls) :
    InLanguage source path ↔
      ∃ ps ∈ (ofSource source).variants, Fits ps (pieces '/' path.toList) := by
  have hregular : ∀ ls ∈ segmentsOf source, IsRegular ls := by
    intro ls hls
    refine ⟨hstars ls hls, fun l hl hslash => ?_⟩
    obtain ⟨piece, hpiece, rfl⟩ := List.mem_map.1 hls
    exact not_mem_of_mem_pieces hpiece (mem_of_mem_lettersOf hl hslash)
  have hnames : ∀ name ∈ pieces '/' path.toList, '/' ∉ name := fun _ => not_mem_of_mem_pieces
  have hparts {v} (hv : v ∈ variantsOf (segmentsOf source)) :
      Fits (partsOf v) (pieces '/' path.toList) ↔
        Fits (v.map Part.ofLetters) (pieces '/' path.toList) := by
    obtain ⟨hempty, hupward⟩ := not_mem_of_mem_variantsOf hsource hv
    refine fits_partsOf hempty hupward fun hnil => ?_
    have hsegments := (eq_nil_iff_of_mem_variantsOf hv).1 hnil
    exact pieces_ne_nil '/' source.toList (List.map_eq_nil_iff.1 hsegments)
  rw [InLanguage, describes_iff_variantsOf hregular hnames]
  constructor
  · rintro ⟨v, hv, hfits⟩
    exact ⟨partsOf v, List.mem_map_of_mem hv, (hparts hv).2 hfits⟩
  · rintro ⟨_, hps, hfits⟩
    obtain ⟨v, hv, rfl⟩ := List.mem_map.1 hps
    exact ⟨v, hv, (hparts hv).1 hfits⟩

/-- A pattern matches a path when one of its variants accepts the names. -/
theorem isMatch_iff {source path : String} (hsource : Path.IsPlace source)
    (hpath : Path.IsPlace path) :
    (ofSource source).isMatch path = true ↔
      ∃ ps ∈ (ofSource source).variants, acceptsPath ps (pieces '/' path.toList) = true := by
  have hempty : (ofSource source).source.isEmpty = false := by
    simpa [ofSource] using hsource.ne_empty
  have hnames : namesOf path = pieces '/' path.toList :=
    dropInnerEmpty_eq fun h => (areNames_of_isPlace hpath [] h).ne_empty rfl
  rw [isMatch, hempty, hnames, if_neg Bool.false_ne_true, List.any_eq_true]

/-- What a pattern of literal segments matches is in its language. -/
theorem inLanguage_of_isMatch {source path : String} (hsource : Path.IsPlace source)
    (hstars : ∀ ls ∈ segmentsOf source, HasNoTriple ls) (hpath : Path.IsPlace path)
    (hliteral : ∀ ps ∈ (ofSource source).variants, ∀ p ∈ ps, p.IsLiteral)
    (h : (ofSource source).isMatch path = true) : InLanguage source path := by
  obtain ⟨ps, hps, haccepts⟩ := (isMatch_iff hsource hpath).1 h
  have hfits := fits_of_acceptsPath (hliteral ps hps) (areNames_of_isPlace hpath) haccepts
  exact (inLanguage_iff hsource hstars).2 ⟨ps, hps, hfits⟩

/-- A pattern of literal segments matches what is in its language when its variants
have room. -/
theorem isMatch_of_inLanguage {source path : String} (hsource : Path.IsPlace source)
    (hstars : ∀ ls ∈ segmentsOf source, HasNoTriple ls) (hpath : Path.IsPlace path)
    (hliteral : ∀ ps ∈ (ofSource source).variants, ∀ p ∈ ps, p.IsLiteral)
    (hroom : ∀ ps ∈ (ofSource source).variants, HasRoom ps) (h : InLanguage source path) :
    (ofSource source).isMatch path = true := by
  obtain ⟨ps, hps, hfits⟩ := (inLanguage_iff hsource hstars).1 h
  have hapart : StandApart ps := by
    obtain ⟨v, -, rfl⟩ := List.mem_map.1 hps
    exact standApart_partsOf v
  have haccepts := acceptsPath_of_fits (hliteral ps hps) (areNames_of_isPlace hpath) hapart
    (hroom ps hps) hfits
  exact (isMatch_iff hsource hpath).2 ⟨ps, hps, haccepts⟩

/-- **A pattern of literal segments matches paths of its language only, and all of
them when its variants have room for their sections.** -/
theorem isMatch_ofSource {source path : String} (hsource : Path.IsPlace source)
    (hstars : ∀ ls ∈ segmentsOf source, HasNoTriple ls) (hpath : Path.IsPlace path)
    (hliteral : ∀ ps ∈ (ofSource source).variants, ∀ p ∈ ps, p.IsLiteral) :
    ((ofSource source).isMatch path = true → InLanguage source path) ∧
      ((∀ ps ∈ (ofSource source).variants, HasRoom ps) →
        ((ofSource source).isMatch path = true ↔ InLanguage source path)) := by
  have hsound := inLanguage_of_isMatch hsource hstars hpath hliteral
  exact ⟨hsound, fun hroom => ⟨hsound, isMatch_of_inLanguage hsource hstars hpath hliteral hroom⟩⟩

/-- Two stars before an ending match across folders. -/
theorem isMatch_ofSource_ending :
    let source := "src/**.py"
    let path := "src/a/b.py"
    Path.IsPlace source ∧ (∀ ls ∈ segmentsOf source, HasNoTriple ls) ∧ Path.IsPlace path ∧
      (∀ ps ∈ (ofSource source).variants, ∀ p ∈ ps, p.IsLiteral) ∧
      (∀ ps ∈ (ofSource source).variants, HasRoom ps) ∧
      (ofSource source).isMatch path = true ∧ InLanguage source path := by
  intro source path
  have hsource : Path.IsPlace source := by decide +kernel
  have hstars : ∀ ls ∈ segmentsOf source, HasNoTriple ls := by decide +kernel
  have hpath : Path.IsPlace path := by decide +kernel
  have hliteral : ∀ ps ∈ (ofSource source).variants, ∀ p ∈ ps, p.IsLiteral := by decide +kernel
  have hroom : ∀ ps ∈ (ofSource source).variants, HasRoom ps := by decide +kernel
  have hmatch : (ofSource source).isMatch path = true := by decide +kernel
  exact ⟨hsource, hstars, hpath, hliteral, hroom, hmatch,
    ((isMatch_ofSource hsource hstars hpath hliteral).2 hroom).1 hmatch⟩

/-- A name with the parenthesis at its end is in the language of stars before one,
and is not matched: the parenthesis is compared with its backslash. -/
theorem not_isMatch_parenthesis :
    let source := "*)"
    let path := "a)"
    Path.IsPlace source ∧ (∀ ls ∈ segmentsOf source, HasNoTriple ls) ∧
      (∀ piece ∈ pieces '/' source.toList, piece.getLast? ≠ some '\\') ∧ Path.IsPlace path ∧
      InLanguage source path ∧ (ofSource source).isMatch path = false := by
  intro source path
  have hspans : Spans [.star, .marked ')'] ['a', ')'] :=
    ⟨['a'], [')'], by simp [Letter.Takes], rfl, [')'], [], rfl, rfl, rfl⟩
  have hdescribes : Describes [[.star, .marked ')']] ([['a', ')']] ++ []) :=
    .segment (by decide) (by decide) hspans .nil
  have hlanguage : InLanguage source path := by
    have hsegments : segmentsOf source = [[.star, .marked ')']] := by decide +kernel
    have hnames : pieces '/' path.toList = [['a', ')']] := by decide +kernel
    rw [InLanguage, hsegments, hnames]
    exact hdescribes
  exact ⟨by decide +kernel, by decide +kernel, by decide +kernel, by decide +kernel, hlanguage,
    by decide +kernel⟩

/-- Next to a star a marked bar separates alternatives. -/
example : (ofSource "a\\|*").isMatch "zzz" = true := by cbv

/-- A source is **ordinary** when nothing in it is marked: it has no backslashes and
no signs. -/
def IsOrdinary (source : String) : Prop :=
  ∀ c ∈ source.toList, c ≠ '\\' ∧ isSign c = false

instance (source : String) : Decidable (IsOrdinary source) :=
  inferInstanceAs (Decidable (∀ c ∈ source.toList, _))

/-- A segment is **unmarked** when it has no marked letters. -/
def IsUnmarked (ls : List Letter) : Prop :=
  ∀ l ∈ ls, l.isMarked = false

theorem IsUnmarked.isLiteral (h : IsUnmarked ls) : IsLiteral ls :=
  fun _ => ⟨fun hbar => Bool.false_ne_true (h _ hbar).symm,
    fun _ => List.any_eq_false.2 fun l hl => by simp [h l hl]⟩

theorem isUnmarked_lettersOf (hcs : ∀ c ∈ cs, c ≠ '\\' ∧ isSign c = false) :
    IsUnmarked (lettersOf cs) := by
  fun_induction lettersOf cs with
  | case1 => exact nofun
  | case2 => exact absurd rfl (hcs '\\' List.mem_cons_self).1
  | case3 => exact absurd rfl (hcs '\\' List.mem_cons_self).1
  | case4 c cs _ _ ih =>
      obtain ⟨hc, hrest⟩ := List.forall_mem_cons.1 hcs
      refine List.forall_mem_cons.2 ⟨?_, ih hrest⟩
      unfold Letter.ofChar
      rw [hc.2]
      split <;> rfl

/-- Crossing into other names marks nothing. -/
theorem isUnmarked_of_mem_crossings (hls : IsUnmarked ls) (h : e ∈ crossings ls) :
    ∀ s ∈ e, IsUnmarked s := by
  have hstar : Letter.star.isMarked = false := rfl
  induction ls using crossings.induct generalizing e with
  | case1 =>
      obtain rfl := List.mem_singleton.1 h
      simp [IsUnmarked]
  | case2 ls ih =>
      obtain ⟨s, ss, hmem, he⟩ := mem_crossings_double.1 h
      have hrest := ih (fun l hl => hls l (by simp [hl])) hmem
      simp only [IsUnmarked, List.forall_mem_cons] at hrest ⊢
      rcases he with rfl | rfl <;> simpa [hstar] using hrest
  | case3 l ls hsingle ih =>
      obtain ⟨hl, hls⟩ := List.forall_mem_cons.1 hls
      obtain ⟨s, ss, hmem, rfl⟩ := (mem_crossings_cons (head?_ne_of_single hsingle)).1 h
      obtain ⟨hs, hss⟩ := List.forall_mem_cons.1 (ih hls hmem)
      exact List.forall_mem_cons.2 ⟨List.forall_mem_cons.2 ⟨hl, hs⟩, hss⟩

theorem isUnmarked_of_mem_variantsOf (hsegments : ∀ ls ∈ segments, IsUnmarked ls)
    (h : v ∈ variantsOf segments) : ∀ s ∈ v, IsUnmarked s := by
  induction segments generalizing v with
  | nil =>
      obtain rfl := List.mem_singleton.1 h
      exact nofun
  | cons ls segments ih =>
      obtain ⟨hls, hrest⟩ := List.forall_mem_cons.1 hsegments
      obtain ⟨e, he, v', hv', rfl⟩ := mem_variantsOf_cons.1 h
      have hexpand : ∀ s ∈ e, IsUnmarked s := by
        unfold expansions at he
        split at he
        · obtain rfl := List.mem_singleton.1 he
          exact List.forall_mem_singleton.2 hls
        · exact isUnmarked_of_mem_crossings hls he
      exact List.forall_mem_append.2 ⟨hexpand, ih hrest hv'⟩

theorem mem_of_mem_foldl_pushPart (h : p ∈ ps.foldl pushPart back) : p ∈ back ∨ p ∈ ps := by
  induction ps generalizing back with
  | nil => exact .inl h
  | cons q ps ih =>
      rcases ih h with hpush | hrest
      · have hmem : p ∈ back ∨ p = q := by
          cases back with
          | nil => exact .inr (List.mem_singleton.1 hpush)
          | cons top rest =>
              rw [pushPart] at hpush
              split at hpush
              · exact .inl hpush
              · split at hpush
                · exact .inl (List.mem_cons_of_mem top hpush)
                · exact (List.mem_cons.1 hpush).symm
        rcases hmem with hback | rfl
        · exact .inl hback
        · exact .inr List.mem_cons_self
      · exact .inr (List.mem_cons_of_mem q hrest)

/-- The parts of an ordinary source are literal. -/
theorem isLiteral_of_isOrdinary {source : String} (hsource : Path.IsPlace source)
    (hordinary : IsOrdinary source) :
    ∀ ps ∈ (ofSource source).variants, ∀ p ∈ ps, p.IsLiteral := by
  intro ps hps p hp
  obtain ⟨v, hv, rfl⟩ := List.mem_map.1 hps
  have hsegments : ∀ ls ∈ segmentsOf source, IsUnmarked ls := by
    intro ls hls
    obtain ⟨piece, hpiece, rfl⟩ := List.mem_map.1 hls
    exact isUnmarked_lettersOf fun c hc => hordinary c (mem_of_mem_pieces hpiece hc)
  have hmem : p ∈ v.map Part.ofLetters ∨ p = .segment [] := by
    rw [partsOf, dropInnerEmpty_eq (not_mem_of_mem_variantsOf hsource hv).1] at hp
    split at hp
    · exact .inr (List.mem_singleton.1 hp)
    · exact .inl ((mem_of_mem_foldl_pushPart (List.mem_reverse.1 hp)).resolve_left List.not_mem_nil)
  rcases hmem with hmem | rfl
  · obtain ⟨s, hs, rfl⟩ := List.mem_map.1 hmem
    unfold Part.ofLetters
    split
    · trivial
    · exact (isUnmarked_of_mem_variantsOf hsegments hv s hs).isLiteral
  · exact nofun

/-- **An ordinary pattern matches exactly the paths of its language** when none of its
variants has more than two globstars. -/
theorem isMatch_iff_inLanguage {source path : String} (hsource : Path.IsPlace source)
    (hstars : ∀ ls ∈ segmentsOf source, HasNoTriple ls) (hpath : Path.IsPlace path)
    (hordinary : IsOrdinary source)
    (hfew : ∀ ps ∈ (ofSource source).variants, ps.count .globstar ≤ 2) :
    (ofSource source).isMatch path = true ↔ InLanguage source path := by
  have hliteral := isLiteral_of_isOrdinary hsource hordinary
  have hroom : ∀ ps ∈ (ofSource source).variants, HasRoom ps := fun ps hps =>
    hasRoom_of_count_le (hfew ps hps)
  exact ⟨inLanguage_of_isMatch hsource hstars hpath hliteral,
    isMatch_of_inLanguage hsource hstars hpath hliteral hroom⟩

end LicenseAudit.Glob
