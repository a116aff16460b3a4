import LicenseAudit.Text.Order
import Mathlib.Data.List.Nodup

/-!
# Ascending lists

The order of texts by their 16-bit units is a strict linear order, because
no two characters have the same rank.  An ascending list is therefore
determined by its members, which is what makes a sorted list without
repetitions a faithful picture of a set: `IsListing` says that a list is
the picture of a property, `IsListing.unique` that a property has only
one, and `isListing_sortedUnique` that `sortedUnique` draws it.
-/

namespace LicenseAudit.Text

/-- No two characters have the same rank. -/
theorem unitRank_injective {a b : Char} (h : unitRank a = unitRank b) : a = b := by
  have ha : a.toNat < 0xD800 ∨ 0xDFFF < a.toNat ∧ a.toNat < 0x110000 := a.valid
  have hb : b.toNat < 0xD800 ∨ 0xDFFF < b.toNat ∧ b.toNat < 0x110000 := b.valid
  have hn : a.toNat = b.toNat := by
    unfold unitRank at h
    split_ifs at h <;> omega
  exact Char.toNat_inj.1 hn

instance : Std.LawfulEqCmp (compareOn unitRank) where
  compare_self := Std.ReflOrd.compare_self
  eq_of_compare h := unitRank_injective (Std.LawfulEqOrd.eq_of_compare h)

instance : Std.TransCmp unitOrder where
  eq_swap := (inferInstance : Std.TransCmp (List.compareLex (compareOn unitRank))).eq_swap
  isLE_trans := (inferInstance : Std.TransCmp (List.compareLex (compareOn unitRank))).isLE_trans

instance : Std.LawfulEqCmp unitOrder where
  compare_self :=
    (inferInstance : Std.LawfulEqCmp (List.compareLex (compareOn unitRank))).compare_self
  eq_of_compare h := String.toList_injective
    ((inferInstance : Std.LawfulEqCmp (List.compareLex (compareOn unitRank))).eq_of_compare h)

/-- Texts are the same exactly if neither comes before the other. -/
theorem unitOrder_eq_iff {a b : String} : unitOrder a b = .eq ↔ a = b :=
  Std.LawfulEqCmp.compare_eq_iff_eq

theorem Before.trans {a b c : String} (hab : Before a b) (hbc : Before b c) : Before a c :=
  Std.TransCmp.lt_trans hab hbc

theorem Before.asymm {a b : String} (hab : Before a b) : ¬ Before b a :=
  Std.OrientedCmp.not_lt_of_lt hab

/-- A text that is at most another comes before it or is the same. -/
theorem isAtMost_iff {a b : String} : isAtMost a b = true ↔ Before a b ∨ a = b := by
  unfold isAtMost Before
  rw [← unitOrder_eq_iff]
  cases unitOrder a b <;> simp

/-- To come before or be the same is transitive when to come before is. -/
theorem trans_of_iff_before {le : α → α → Bool} {before : α → α → Prop}
    (hle : ∀ a b, le a b = true ↔ before a b ∨ a = b)
    (htrans : ∀ a b c, before a b → before b c → before a c) {a b c : α}
    (hab : le a b = true) (hbc : le b c = true) : le a c = true := by
  rw [hle] at *
  rcases hab with hab | rfl
  · rcases hbc with hbc | rfl
    · exact Or.inl (htrans a b c hab hbc)
    · exact Or.inl hab
  · exact hbc

theorem isAtMost_trans {a b c : String} (hab : isAtMost a b = true)
    (hbc : isAtMost b c = true) : isAtMost a c = true :=
  trans_of_iff_before (fun _ _ => isAtMost_iff) (fun _ _ _ => Before.trans) hab hbc

theorem isAtMost_total (a b : String) : (isAtMost a b || isAtMost b a) = true := by
  have hswap : unitOrder b a = (unitOrder a b).swap := Std.OrientedCmp.eq_swap
  unfold isAtMost
  rw [hswap]
  cases unitOrder a b <;> rfl

/-- A list is the **listing** of a property when it holds exactly the
values with the property, and every one of them comes before the next. -/
structure IsListing (before : α → α → Prop) (P : α → Prop) (l : List α) : Prop where
  ascending : l.Pairwise before
  mem_iff : ∀ x, x ∈ l ↔ P x

/-- A listing holds no value twice. -/
theorem IsListing.nodup {before : α → α → Prop} (hasymm : ∀ a b, before a b → ¬ before b a)
    {P : α → Prop} {l : List α} (h : IsListing before P l) : l.Nodup :=
  h.ascending.imp fun {a b} hab (he : a = b) => by
    subst he
    exact hasymm a a hab hab

/-- A property has only one listing. -/
theorem IsListing.unique {before : α → α → Prop} (hasymm : ∀ a b, before a b → ¬ before b a)
    {P : α → Prop} {l l' : List α} (h : IsListing before P l) (h' : IsListing before P l') :
    l = l' := by
  have hperm : l.Perm l' := (List.perm_ext_iff_of_nodup (h.nodup hasymm) (h'.nodup hasymm)).2
    fun x => (h.mem_iff x).trans (h'.mem_iff x).symm
  exact hperm.eq_of_pairwise (fun a b _ _ hab hba => absurd hba (hasymm a b hab))
    h.ascending h'.ascending

/-- A listing of a property is one of every equivalent property. -/
theorem IsListing.congr {before : α → α → Prop} {P Q : α → Prop} {l : List α}
    (h : IsListing before P l) (hPQ : ∀ x, P x ↔ Q x) : IsListing before Q l :=
  ⟨h.ascending, fun x => (h.mem_iff x).trans (hPQ x)⟩

/-- Sorting values that are all different lists them, when of two of them the
one that is at most the other comes before it. -/
theorem isListing_mergeSort {le : α → α → Bool} {before : α → α → Prop} {values : List α}
    (htrans : ∀ a b c, le a b = true → le b c = true → le a c = true)
    (htotal : ∀ a b, (le a b || le b a) = true) (hnodup : values.Nodup)
    (hbefore : ∀ a ∈ values, ∀ b ∈ values, le a b = true → a ≠ b → before a b) :
    IsListing before (· ∈ values) (values.mergeSort le) := by
  have hsorted := List.pairwise_mergeSort htrans htotal values
  have hdistinct := (List.mergeSort_perm values le).nodup_iff.2 hnodup
  refine ⟨(hsorted.and hdistinct).imp_of_mem ?_, fun x => List.mem_mergeSort⟩
  rintro a b ha hb ⟨hle, hne⟩
  exact hbefore a (List.mem_mergeSort.1 ha) b (List.mem_mergeSort.1 hb) hle hne

/-- Some of the values of a listing are a listing. -/
theorem IsListing.filter {before : α → α → Prop} {P : α → Prop} {l : List α}
    (h : IsListing before P l) (q : α → Bool) :
    IsListing before (fun x => P x ∧ q x = true) (l.filter q) :=
  ⟨h.ascending.filter q, fun x => by rw [List.mem_filter, h.mem_iff]⟩

theorem mem_insertUnique {x y : String} {l : List String} :
    y ∈ insertUnique x l ↔ y = x ∨ y ∈ l := by
  induction l with
  | nil => simp [insertUnique]
  | cons z zs ih =>
      cases h : unitOrder x z with
      | lt => simp [insertUnique, h]
      | eq =>
          have hxz : x = z := unitOrder_eq_iff.1 h
          simp only [insertUnique, h, List.mem_cons]
          rw [hxz, or_self_left]
      | gt => simp [insertUnique, h, ih, or_left_comm]

theorem pairwise_insertUnique {x : String} {l : List String} (h : l.Pairwise Before) :
    (insertUnique x l).Pairwise Before := by
  induction l with
  | nil => simp [insertUnique]
  | cons z zs ih =>
      obtain ⟨hz, hzs⟩ := List.pairwise_cons.1 h
      cases hx : unitOrder x z with
      | lt =>
          simp only [insertUnique, hx]
          refine List.pairwise_cons.2 ⟨?_, h⟩
          intro y hy
          rcases List.mem_cons.1 hy with rfl | hy
          · exact hx
          · exact Before.trans hx (hz y hy)
      | eq => simpa only [insertUnique, hx] using h
      | gt =>
          simp only [insertUnique, hx]
          refine List.pairwise_cons.2 ⟨?_, ih hzs⟩
          intro y hy
          rcases mem_insertUnique.1 hy with rfl | hy
          · exact Std.OrientedCmp.lt_of_gt hx
          · exact hz y hy

@[simp] theorem mem_sortedUnique {x : String} {values : List String} :
    x ∈ sortedUnique values ↔ x ∈ values := by
  induction values with
  | nil => simp [sortedUnique]
  | cons v vs ih =>
      have hcons : sortedUnique (v :: vs) = insertUnique v (sortedUnique vs) := rfl
      rw [hcons, mem_insertUnique, ih, List.mem_cons]

theorem pairwise_sortedUnique (values : List String) :
    (sortedUnique values).Pairwise Before := by
  induction values with
  | nil => exact .nil
  | cons v vs ih => exact pairwise_insertUnique ih

/-- Sorting without repetitions lists the members of a list. -/
theorem isListing_sortedUnique (values : List String) :
    IsListing Before (· ∈ values) (sortedUnique values) :=
  ⟨pairwise_sortedUnique values, fun _ => mem_sortedUnique⟩

/-- An ascending list is sorted already. -/
theorem sortedUnique_eq_self {values : List String} (h : values.Pairwise Before) :
    sortedUnique values = values :=
  (isListing_sortedUnique values).unique (fun _ _ hab => hab.asymm) ⟨h, fun _ => Iff.rfl⟩

/-- Sorting values that are all different keeps every one of them. -/
theorem perm_sortedUnique {values : List String} (h : values.Nodup) :
    (sortedUnique values).Perm values :=
  (List.perm_ext_iff_of_nodup ((isListing_sortedUnique values).nodup fun _ _ hab => hab.asymm) h).2
    fun _ => mem_sortedUnique

@[simp] theorem sortedUnique_eq_nil_iff {values : List String} :
    sortedUnique values = [] ↔ values = [] := by
  simp only [List.eq_nil_iff_forall_not_mem, mem_sortedUnique]

/-- Sorting by a key keeps the members. -/
@[simp] theorem mem_sortedOn {key : α → String} {x : α} {values : List α} :
    x ∈ sortedOn key values ↔ x ∈ values :=
  (List.mergeSort_perm values _).mem_iff

/-- A list that is in order already stays as it is. -/
theorem sortedOn_eq_self {key : α → String} {values : List α}
    (h : values.Pairwise fun a b => isAtMost (key a) (key b) = true) :
    sortedOn key values = values :=
  List.mergeSort_of_pairwise h

/-- Sorting by a key that no two values share lists the values. -/
theorem isListing_sortedOn {key : α → String} {values : List α}
    (hkey : (values.map key).Nodup) :
    IsListing (fun a b => Before (key a) (key b)) (· ∈ values) (sortedOn key values) := by
  refine isListing_mergeSort (fun _ _ _ => isAtMost_trans)
    (fun a b => isAtMost_total (key a) (key b)) (List.Nodup.of_map key hkey)
    fun a ha b hb hle hne => ?_
  exact (isAtMost_iff.1 hle).resolve_right fun he => hne (List.inj_on_of_nodup_map hkey ha hb he)

/-- Sorting some of the values gives some of the sorted values. -/
theorem sortedOn_eq_filter {key : α → String} {values part : List α} {q : α → Bool}
    (hvalues : (values.map key).Nodup) (hpart : (part.map key).Nodup)
    (hmem : ∀ x, x ∈ part ↔ x ∈ values ∧ q x = true) :
    sortedOn key part = (sortedOn key values).filter q :=
  ((isListing_sortedOn hpart).congr hmem).unique (fun _ _ hab => hab.asymm)
    ((isListing_sortedOn hvalues).filter q)

theorem sortedUnique_eq_filter {values part : List String} {q : String → Bool}
    (hmem : ∀ x, x ∈ part ↔ x ∈ values ∧ q x = true) :
    sortedUnique part = (sortedUnique values).filter q :=
  ((isListing_sortedUnique part).congr hmem).unique (fun _ _ hab => hab.asymm)
    ((isListing_sortedUnique values).filter q)

@[simp] theorem sortedOn_eq_nil_iff {key : α → String} {values : List α} :
    sortedOn key values = [] ↔ values = [] := by
  simp only [List.eq_nil_iff_forall_not_mem, mem_sortedOn]

end LicenseAudit.Text
