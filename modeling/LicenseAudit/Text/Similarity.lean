import LicenseAudit.Text.Order

/-!
# Similar words

The distance of two words is the least number of single changes that turn
one into the other: a letter is added, left out or replaced, or two letters
next to each other change places.  A word that is not known is likely meant
to be one of those nearest to it.
-/

namespace LicenseAudit.Text

/-- The distances from a beginning of one word to the longer beginnings of
another, cell by cell.  The beginning ends with `x`, after `y` if that is
there; `diag` and `above` are the distances from the beginning without `x`,
`older` those from the one without `y` as well, and `left` and `last` are
the cell before and its letter. -/
def distances [DecidableEq α] (x : α) (y : Option α) (left diag : Nat) (last : Option α) :
    List Nat → List Nat → List α → List Nat
  | up :: above, older, c :: b =>
    let changed := min (min (up + 1) (left + 1)) (if x = c then diag else diag + 1)
    let best :=
      match last, older with
      | some d, swapped :: _ => if y = some c ∧ x = d then min changed (swapped + 1) else changed
      | _, _ => changed
    let older := if last.isSome then older.tail else older
    best :: distances x y best up (some c) above older b
  | _, _, _ => []

/-- The distance of two words. -/
def distance [DecidableEq α] (a b : List α) : Nat :=
  let rec rows (count : Nat) (y : Option α) (older above : List Nat) : List α → List Nat
    | [] => above
    | x :: a =>
      let row := (count + 1) :: distances x y (count + 1) (above.headD 0) none above.tail older b
      rows (count + 1) (some x) above row a
  (rows 0 none [] (List.range (b.length + 1)) a).getLastD 0

/-- How far a word may be from what it is likely meant to be. -/
def likelyDistance : Nat :=
  3

/-- Whether a word is near enough to a candidate: at most three changes,
which leave more than two letters in five as they are. -/
def isLikely (word candidate : List Nat) : Bool :=
  let n := max word.length candidate.length
  let d := distance word candidate
  1 < candidate.length && d ≤ likelyDistance && 5 * d < 3 * n

/-- The candidates that a word is likely meant to be, in ascending order. -/
def likely (word : String) (candidates : List String) : List String :=
  let units (s : String) := unitsOf s.toList
  let near := candidates.filter fun c => isLikely (units word) (units c)
  let d (c : String) := distance (units word) (units c)
  sortedUnique (near.filter fun c => near.all fun other => d c ≤ d other)

end LicenseAudit.Text
