import LicenseAudit.Coverage
import LicenseAudit.Proofs.Text.Search
import Mathlib.Data.List.Basic
import Mathlib.Data.List.Induction
import Mathlib.Data.List.TakeWhile

/-!
# Paths as lists of names

A path below the root of a project is the text of the names on the way: the
names are read off the text and put together again (`split_joined`,
`joined_split`), and its last name is that of the list (`name_joined`).

A path that consists of names is a **place**: it leads down from the root at
every step.
-/

namespace LicenseAudit.Path

open Text

/-- A text may **name** a file in a folder when it is not empty, stands
neither for the folder nor for the one above, and has no slash. -/
structure IsName (n : String) : Prop where
  ne_empty : n ≠ ""
  ne_here : n ≠ "."
  ne_above : n ≠ ".."
  no_slash : '/' ∉ n.toList

instance (n : String) : Decidable (IsName n) :=
  decidable_of_iff (n ≠ "" ∧ n ≠ "." ∧ n ≠ ".." ∧ '/' ∉ n.toList)
    ⟨fun ⟨he, hh, ha, hs⟩ => ⟨he, hh, ha, hs⟩, fun ⟨he, hh, ha, hs⟩ => ⟨he, hh, ha, hs⟩⟩

theorem joined_cons_cons (a b : String) (names : List String) :
    joined (a :: b :: names) = a ++ "/" ++ joined (b :: names) := by
  apply String.toList_injective
  simp [joined]

theorem joined_singleton (a : String) : joined [a] = a := by
  apply String.toList_injective
  simp [joined]

/-- The names of a path are read off it again. -/
theorem split_joined {names : List String} (hne : names ≠ [])
    (hnames : ∀ n ∈ names, '/' ∉ n.toList) : split '/' (joined names) = names := by
  induction names with
  | nil => exact absurd rfl hne
  | cons a names ih =>
      have ha : '/' ∉ a.toList := hnames a (by simp)
      cases names with
      | nil => simp [joined_singleton, split, pieces_of_not_mem ha]
      | cons b names =>
          have hrest := ih (by simp) fun n hn => hnames n (by simp [hn])
          have hsplit : (joined (a :: b :: names)).toList =
              a.toList ++ '/' :: (joined (b :: names)).toList := by
            simp [joined_cons_cons]
          rw [split, hsplit, pieces_append_cons ha, List.map_cons, String.ofList_toList]
          exact congrArg (a :: ·) hrest

theorem split_ne_nil (p : String) : split '/' p ≠ [] := by
  simpa [split] using pieces_ne_nil '/' p.toList

theorem toList_joined (names : List String) :
    (joined names).toList = Text.joined ['/'] (names.map String.toList) := by
  induction names with
  | nil => rfl
  | cons a names ih =>
      cases names with
      | nil => simp [joined_singleton, Text.joined]
      | cons b names => simpa [joined_cons_cons, Text.joined] using ih

/-- The pieces of a path put together are the path. -/
theorem joined_split (p : String) : joined (split '/' p) = p := by
  apply String.toList_injective
  have hpieces : ((pieces '/' p.toList).map String.ofList).map String.toList =
      pieces '/' p.toList := by simp
  rw [toList_joined, split, hpieces, joined_pieces]

theorem joined_append {xs ys : List String} (hx : xs ≠ []) (hy : ys ≠ []) :
    joined (xs ++ ys) = joined xs ++ "/" ++ joined ys := by
  obtain ⟨b, ys, rfl⟩ := List.exists_cons_of_ne_nil hy
  induction xs with
  | nil => exact absurd rfl hx
  | cons a xs ih =>
      cases xs with
      | nil => rw [List.singleton_append, joined_cons_cons, joined_singleton]
      | cons c xs =>
          have hrest := ih (by simp)
          rw [List.cons_append] at hrest
          rw [List.cons_append, List.cons_append, joined_cons_cons, joined_cons_cons, hrest]
          simp only [String.append_assoc]

/-- A path goes on below a directory when it is that of the directory, a
slash and more. -/
theorem isSome_below?_iff {directory p : String} :
    (below? directory p).isSome = true ↔ ∃ rest, p = directory ++ "/" ++ rest := by
  simp only [below?, Option.isSome_map, Option.isSome_iff_exists, dropStart?_eq_some_iff]
  constructor
  · rintro ⟨rest, hpath⟩
    exact ⟨String.ofList rest, String.toList_injective (by simpa using hpath)⟩
  · rintro ⟨rest, rfl⟩
    exact ⟨rest.toList, by simp⟩

/-- A name does not end with a slash. -/
theorem IsName.exists_reverse_eq {n : String} (hn : IsName n) :
    ∃ c cs, n.toList.reverse = c :: cs ∧ c ≠ '/' ∧ '/' ∉ cs := by
  obtain ⟨c, cs, hcs⟩ :=
    List.exists_cons_of_ne_nil (show n.toList.reverse ≠ [] by simpa using hn.ne_empty)
  have hslash : '/' ∉ n.toList.reverse := by simpa using hn.no_slash
  rw [hcs, List.mem_cons, not_or] at hslash
  exact ⟨c, cs, hcs, Ne.symm hslash.1, hslash.2⟩

/-- What follows the last slash of a path is its last name. -/
theorem name_eq_of_toList {p n : String} (hn : IsName n) (before : List Char)
    (hp : p.toList = before ++ n.toList) (hend : before = [] ∨ ∃ rest, before = rest ++ ['/']) :
    name p = n := by
  obtain ⟨c, cs, hcs, hc, hslash⟩ := hn.exists_reverse_eq
  have hback : (p.toList.reverse.dropWhile (· == '/')) = n.toList.reverse ++ before.reverse := by
    rw [hp, List.reverse_append, hcs, List.cons_append,
      List.dropWhile_cons_of_neg (by simpa using hc)]
  have hstop : before.reverse.takeWhile (· != '/') = [] := by
    rcases hend with rfl | ⟨rest, rfl⟩ <;> simp
  have hall : ∀ d ∈ n.toList.reverse, (d != '/') = true := by
    intro d hd
    simpa using fun he : d = '/' => hn.no_slash (List.mem_reverse.1 (he ▸ hd))
  simp only [name]
  rw [hback, List.takeWhile_append_of_pos hall, hstop, List.append_nil, List.reverse_reverse,
    String.ofList_toList]

/-- The last name of a path is the last of its names. -/
theorem name_joined {names : List String} {n : String} (hn : IsName n) :
    name (joined (names ++ [n])) = n := by
  cases hnames : names with
  | nil =>
      refine name_eq_of_toList hn [] ?_ (Or.inl rfl)
      rw [List.nil_append, joined_singleton, List.nil_append]
  | cons a others =>
      refine name_eq_of_toList hn ((joined (a :: others)).toList ++ ['/']) ?_ (Or.inr ⟨_, rfl⟩)
      rw [joined_append (by simp) (by simp), joined_singleton]
      simp

/-- With a longer ending a text without slashes is a name. -/
theorem isName_append {stem ending : String} (hstem : '/' ∉ stem.toList)
    (hending : '/' ∉ ending.toList) (hlong : 2 < ending.length) : IsName (stem ++ ending) := by
  have hlength : 2 < (stem ++ ending).length := by
    rw [String.length_append]
    omega
  have hne {short : String} (hshort : short.length ≤ 2) : stem ++ ending ≠ short := by
    intro he
    rw [he] at hlength
    omega
  exact ⟨hne (by decide), hne (by decide), hne (by decide), by simpa using ⟨hstem, hending⟩⟩

/-- A text without slashes is its last name. -/
theorem name_eq_self {n : String} (hslash : '/' ∉ n.toList) : name n = n := by
  have hall : ∀ c ∈ n.toList.reverse, (c != '/') = true := by
    intro c hc
    simpa using fun he : c = '/' => hslash (List.mem_reverse.1 (he ▸ hc))
  have hdrop : n.toList.reverse.dropWhile (· == '/') = n.toList.reverse := by
    refine List.dropWhile_eq_self_iff.2 fun hlength => ?_
    have hhead := hall _ (List.getElem_mem hlength)
    simpa using hhead
  simp only [name]
  rw [hdrop, List.takeWhile_eq_self_iff.2 hall, List.reverse_reverse, String.ofList_toList]

/-- The extension of a name is what stands from its last dot on. -/
theorem extensionOf_append {ext : List Char} (stem : List Char) (hext : '.' ∉ ext) :
    extensionOf (stem ++ '.' :: ext) =
      if stem = [] ∨ stem ++ '.' :: ext = ['.', '.'] then [] else '.' :: ext := by
  have hall : ∀ c ∈ ext.reverse, (c != '.') = true := by
    intro c hc
    simpa using fun he : c = '.' => hext (List.mem_reverse.1 (he ▸ hc))
  have hback : (stem ++ '.' :: ext).reverse = ext.reverse ++ '.' :: stem.reverse := by simp
  have hdrop : (ext.reverse ++ '.' :: stem.reverse).dropWhile (· != '.') = '.' :: stem.reverse := by
    rw [List.dropWhile_append_of_pos hall]
    simp
  have htake : (ext.reverse ++ '.' :: stem.reverse).takeWhile (· != '.') = ext.reverse := by
    rw [List.takeWhile_append_of_pos hall]
    simp
  simp only [extensionOf, hback, hdrop, htake, List.reverse_eq_nil_iff, List.reverse_reverse]

theorem extensionOf_of_not_mem {n : List Char} (hdot : '.' ∉ n) : extensionOf n = [] := by
  have hdrop : n.reverse.dropWhile (· != '.') = [] := by
    refine List.dropWhile_eq_nil_iff.2 fun c hc => ?_
    simpa using fun he : c = '.' => hdot (List.mem_reverse.1 (he ▸ hc))
  simp only [extensionOf, hdrop]

/-- An extension after a name is cut off again. -/
theorem cutExtension_append {stem ext : String} (hne : stem ≠ "") (hext : '.' ∉ ext.toList)
    (hup : stem ++ "." ++ ext ≠ "..") (hslash : '/' ∉ (stem ++ "." ++ ext).toList) :
    cutExtension (stem ++ "." ++ ext) = (stem, "." ++ ext) := by
  have hchars : (stem ++ "." ++ ext).toList = stem.toList ++ '.' :: ext.toList := by simp
  have hcut : ¬ (stem.toList = [] ∨ stem.toList ++ '.' :: ext.toList = ['.', '.']) := by
    rintro (hempty | habove)
    · exact hne (by simpa using hempty)
    · exact hup (String.toList_injective (hchars.trans habove))
  have hextension : extensionOf (stem ++ "." ++ ext).toList = '.' :: ext.toList := by
    rw [hchars, extensionOf_append _ hext, if_neg hcut]
  have hlength : (stem ++ "." ++ ext).length - ('.' :: ext.toList).length = stem.toList.length := by
    rw [← String.length_toList, hchars, List.length_append, Nat.add_sub_cancel]
  rw [cutExtension, name_eq_self hslash, hextension, hlength, hchars, List.take_left,
    String.ofList_toList]
  exact congrArg (stem, ·) (String.toList_injective (by simp))

theorem cutExtension_append_txt {stem : String} (hne : stem ≠ "") (hslash : '/' ∉ stem.toList) :
    cutExtension (stem ++ ".txt") = (stem, ".txt") := by
  have hdotted : stem ++ "." ++ "txt" = stem ++ ".txt" := by rw [String.append_assoc]; rfl
  have hname : IsName (stem ++ "." ++ "txt") :=
    hdotted ▸ isName_append hslash (by decide) (by decide)
  rw [← hdotted, cutExtension_append hne (by decide) hname.ne_above hname.no_slash]
  rfl

/-- A text is the **stem** of a name when a dot and an extension without dots
follow it, unless the name goes up. -/
structure IsStem (stem n : String) : Prop where
  ne_empty : stem ≠ ""
  ne_above : n ≠ ".."
  extended : ∃ ext, '.' ∉ ext.toList ∧ n = stem ++ "." ++ ext

/-- The stem of a name is what is left of it without its extension. -/
theorem IsStem.exists_cutExtension_eq {stem n : String} (h : IsStem stem n)
    (hslash : '/' ∉ n.toList) : ∃ ext, ext ≠ "" ∧ cutExtension n = (stem, ext) := by
  obtain ⟨hne, hup, ext, hext, rfl⟩ := h
  exact ⟨"." ++ ext, by simp, cutExtension_append hne hext hup hslash⟩

/-- A name without a stem has no extension. -/
theorem cutExtension_eq_self {n : String} (hslash : '/' ∉ n.toList)
    (h : ∀ stem, ¬ IsStem stem n) : cutExtension n = (n, "") := by
  have hnone : extensionOf n.toList = [] := by
    by_cases hdot : '.' ∈ n.toList
    · obtain ⟨back, front, hback, hext⟩ :=
        List.eq_append_cons_of_mem (List.mem_reverse.2 hdot)
      have hchars : n.toList = front.reverse ++ '.' :: back.reverse := by
        simpa using congrArg List.reverse hback
      rw [hchars, extensionOf_append _ (by simpa using hext)]
      refine if_pos ?_
      by_contra hcut
      rw [not_or, ← hchars] at hcut
      refine h (String.ofList front.reverse) ⟨by simpa using hcut.1, ?_,
        String.ofList back.reverse, by simpa using hext,
        String.toList_injective (by simpa using hchars)⟩
      rintro rfl
      exact hcut.2 rfl
    · exact extensionOf_of_not_mem hdot
  rw [cutExtension, name_eq_self hslash, hnone]
  simp [← String.length_toList]

/-- A path is a **place** below the root of a project when it consists of
names. -/
def IsPlace (p : String) : Prop :=
  ∃ names, names ≠ [] ∧ (∀ n ∈ names, IsName n) ∧ p = joined names

theorem isPlace_iff {p : String} : IsPlace p ↔ ∀ n ∈ split '/' p, IsName n := by
  constructor
  · rintro ⟨names, hne, hnames, rfl⟩
    rwa [split_joined hne fun n hn => (hnames n hn).no_slash]
  · intro h
    exact ⟨split '/' p, split_ne_nil p, h, (joined_split p).symm⟩

instance (p : String) : Decidable (IsPlace p) :=
  decidable_of_iff _ isPlace_iff.symm

namespace IsPlace

variable {p : String}

/-- A place begins with a name. -/
theorem exists_toList_eq (hp : IsPlace p) : ∃ c cs, p.toList = c :: cs ∧ c ≠ '/' := by
  obtain ⟨names, hne, hnames, rfl⟩ := hp
  obtain ⟨a, others, rfl⟩ := List.exists_cons_of_ne_nil hne
  have ha := hnames a (by simp)
  obtain ⟨c, cs, hcs⟩ := List.exists_cons_of_ne_nil (show a.toList ≠ [] by simpa using ha.ne_empty)
  have hc : c ≠ '/' := fun he => ha.no_slash (by simp [hcs, he])
  cases others with
  | nil => exact ⟨c, cs, by rw [joined_singleton, hcs], hc⟩
  | cons b others =>
      exact ⟨c, cs ++ '/' :: (joined (b :: others)).toList, by simp [joined_cons_cons, hcs], hc⟩

/-- The last name of a place is that of its file. -/
theorem exists_split_eq (hp : IsPlace p) :
    ∃ before n, split '/' p = before ++ [n] ∧ name p = n := by
  obtain ⟨names, hne, hnames, rfl⟩ := hp
  have hsplit := split_joined hne fun n hn => (hnames n hn).no_slash
  rcases List.eq_nil_or_concat' names with rfl | ⟨before, n, rfl⟩
  · exact absurd rfl hne
  · exact ⟨before, n, hsplit, name_joined (hnames n (by simp))⟩

theorem ne_here (hp : IsPlace p) : p ≠ "." := by
  rintro rfl
  exact absurd hp (by decide +kernel)

theorem ne_empty (hp : IsPlace p) : p ≠ "" := by
  rintro rfl
  obtain ⟨c, cs, h, -⟩ := hp.exists_toList_eq
  cases h

theorem isAbsolute_eq (hp : IsPlace p) : isAbsolute p = false := by
  obtain ⟨c, cs, h, hc⟩ := hp.exists_toList_eq
  simp [isAbsolute, h, hc]

end IsPlace

end LicenseAudit.Path
