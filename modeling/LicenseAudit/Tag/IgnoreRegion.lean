import LicenseAudit.Text.Search

/-!
# Ignore regions

Text between the two ignore markers is not looked at.  `visible` is a text
without its ignore regions: each region goes with its markers and with the
comment leader in front of it; a region that opens on the first line takes
the lines of both its markers with it; a region that is never closed runs
to the end; an end marker outside every region is dropped.
-/

namespace LicenseAudit.Tag

open Text

/-- The marker that opens an ignore region. -/
def ignoreStart : List Char :=
  "REUSE-IgnoreStart".toList

/-- The marker that closes an ignore region. -/
def ignoreEnd : List Char :=
  "REUSE-IgnoreEnd".toList

/-- The blanks that may surround a comment leader. -/
def isLeaderBlank (c : Char) : Bool :=
  c == ' ' || c == '\t'

/-- The signs that start a comment, a sign before those it ends with. -/
def commentLeaders : List (List Char) :=
  ["#", "//", "/*", "<!--", "--", ";", "%"].map String.toList

/-- The text without the leader blanks at its end. -/
def dropBlanksEnd (cs : List Char) : List Char :=
  (cs.reverse.dropWhile isLeaderBlank).reverse

/-- The text without the comment leader at its end. -/
def dropLeader (cs : List Char) : List Char :=
  let cs := dropBlanksEnd cs
  match commentLeaders.findSome? (dropEnd? · cs) with
  | some rest => dropBlanksEnd rest
  | none => cs

/-- The text after the first line end, or nothing. -/
def dropLine (cs : List Char) : List Char :=
  (cs.dropWhile (· != '\n')).drop 1

theorem length_lt_of_cut? {mark cs before rest : List Char}
    (h : cut? mark cs = some (before, rest)) (hm : mark ≠ []) :
    rest.length < cs.length := by
  rw [eq_append_of_cut? h]
  have := List.length_pos_iff.2 hm
  simp only [List.length_append]
  omega

/-- The parts of `cs` outside its ignore regions, each one before a region
without its comment leader, `cs` not being on the first line. -/
def outside (cs : List Char) : List Char :=
  match _hs : cut? ignoreStart cs with
  | none => cs
  | some (before, rest) =>
    dropLeader before ++
      match _he : cut? ignoreEnd rest with
      | none => []
      | some (_, after) => outside after
termination_by cs.length
decreasing_by
  have := length_lt_of_cut? _hs (by decide)
  have := length_lt_of_cut? _he (by decide)
  omega

/-- The parts of a whole text outside its ignore regions. -/
def outsideFromTop (cs : List Char) : List Char :=
  match cut? ignoreStart cs with
  | none => cs
  | some (before, rest) =>
    if before.contains '\n' then outside cs
    else
      match cut? ignoreEnd rest with
      | none => []
      | some (_, after) => outside (dropLine after)

/-- The text without the occurrences of `mark`, found from left to
right. -/
def without (mark cs : List Char) : List Char :=
  if _hm : mark = [] then cs
  else
    match _h : cut? mark cs with
    | none => cs
    | some (before, rest) => before ++ without mark rest
termination_by cs.length
decreasing_by exact length_lt_of_cut? _h _hm

/-- The text that is looked at. -/
def visible (cs : List Char) : List Char :=
  without ignoreEnd (outsideFromTop cs)

end LicenseAudit.Tag
