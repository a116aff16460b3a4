import LicenseAudit.Glob.Segment

/-!
# Path patterns

A pattern is a sequence of segments between slashes.  A segment of two
stars, a **globstar**, stands for any number of whole segments; two stars
inside a longer segment may stay in the segment or cross into
subdirectories, and the pattern is expanded into its variants accordingly.

A variant without globstars is compared segment by segment, a slash at the
end of the path being allowed.  In one with globstars the segments before
the first and after the last are bound to the ends of the path, and the
sections between globstars are placed from left to right, each as early as
possible and no later than its **limit**; more than `sectionLimit` of them are
never placed.
-/

namespace LicenseAudit.Glob

open Text

/-- A part of a variant: a globstar or a segment. -/
inductive Part where
  | globstar
  | segment (letters : List Letter)
  deriving DecidableEq, Repr

/-- The ways to cross into subdirectories at the double stars inside a
segment: for each, the segments that it makes. -/
def crossings : List Letter → List (List (List Letter))
  | [] => [[[]]]
  | .star :: .star :: ls =>
    (crossings ls).flatMap fun
      | [] => []
      | s :: ss => [(.star :: s) :: ss, [.star] :: [.star, .star] :: (.star :: s) :: ss]
  | l :: ls =>
    (crossings ls).map fun
      | [] => [[l]]
      | s :: ss => (l :: s) :: ss

/-- The segments that a segment of the source may stand for. -/
def expansions (ls : List Letter) : List (List (List Letter)) :=
  if ls = [.star, .star] then [[ls]] else crossings ls

/-- The choices of one expansion for each segment, put together. -/
def variantsOf : List (List Letter) → List (List (List Letter))
  | [] => [[]]
  | ls :: rest => (expansions ls).flatMap fun e => (variantsOf rest).map (e ++ ·)

/-- The segments without the empty ones inside; those at the ends stand
for slashes at the ends. -/
def dropInnerEmpty (segments : List (List α)) : List (List α) :=
  match segments with
  | [] => []
  | first :: rest =>
    match rest.getLast? with
    | none => [first]
    | some last => first :: (rest.dropLast.filter (!·.isEmpty) ++ [last])

/-- The part that a segment is. -/
def Part.ofLetters (ls : List Letter) : Part :=
  if ls = [.star, .star] then .globstar else .segment ls

/-- The segment that goes up one directory. -/
def upward : Part :=
  .segment [.plain '.', .plain '.']

/-- Whether a step up after `p` takes `p` back. -/
def Part.isUndone (p : Part) : Bool :=
  p != .globstar && p != .segment [] && p != .segment [.plain '.'] && p != upward

/-- The parts, the last one first, with one more: a globstar after a
globstar adds nothing, and a step up takes a segment back. -/
def pushPart (back : List Part) (p : Part) : List Part :=
  match back with
  | q :: rest =>
    if p = .globstar ∧ q = .globstar then back
    else if p = upward ∧ q.isUndone then rest
    else p :: back
  | [] => [p]

/-- The parts of a variant. -/
def partsOf (segments : List (List Letter)) : List Part :=
  let parts := ((dropInnerEmpty segments).map Part.ofLetters).foldl pushPart []
  if parts.isEmpty then [.segment []] else parts.reverse

/-- Whether a part accepts a name; a globstar is no segment. -/
def Part.acceptsName : Part → List Char → Bool
  | .globstar, _ => false
  | .segment ls, name => accepts ls name

/-- Whether the parts accept the names one by one, an empty name being
left over at most. -/
def acceptsAll : List Part → List (List Char) → Bool
  | [], [] => true
  | [], [name] => name.isEmpty
  | [], _ => false
  | _ :: _, [] => false
  | p :: ps, name :: names => p.acceptsName name && acceptsAll ps names

/-- Whether as many names as there are parts are accepted by them. -/
def acceptsFirst (ps : List Part) (names : List (List Char)) : Bool :=
  ps.length ≤ names.length && acceptsAll ps (names.take ps.length)

/-- The runs of parts between globstars. -/
def sectionsOf : List Part → List (List Part)
  | [] => [[]]
  | p :: ps =>
    match sectionsOf ps with
    | [] => [[p]]
    | s :: ss => if p = .globstar then [] :: s :: ss else (p :: s) :: ss

/-- The sections with their limits: from the room `room` a section's limit
leaves out its own length and the lengths of as many sections from the
first on as follow it. -/
def limits (room : Int) (sections : List (List Part)) : List (List Part × Int) :=
  let sizes := sections.map fun s => (s.length : Int)
  sections.zipIdx.map fun (s, k) =>
    (s, room - ((sizes.take (sections.length - 1 - k)).foldl (· + ·) 0 + s.length))

/-- Places the sections among the names, which start at `index`: `none`
when there is no room, `some false` when a dot name or the end is in the
way, `some true` when all are placed. -/
def place (tailed : Bool) (sections : List (List Part × Int)) (index : Int)
    (names : List (List Char)) : Option Bool :=
  match sections, names with
  | [], names =>
    if names.any isDots then some false else some (tailed || !names.isEmpty)
  | _ :: _, [] => none
  | (s, limit) :: rest, name :: names =>
    if limit < index then none
    else
      let further :=
        if isDots name then some false
        else place tailed ((s, limit) :: rest) (index + 1) names
      if acceptsFirst s (name :: names) then
        match place tailed rest (index + s.length) ((name :: names).drop s.length) with
        | some false => further
        | placed => placed
      else further
termination_by (sections.length, names.length)

/-- How many names at the end the parts `tail` take, after the first
`used` names: their number, or one more for an empty last name. -/
def tailSize? (tail : List Part) (used : Nat) (names : List (List Char)) : Option Nat :=
  let n := names.length
  if n < tail.length + used then none
  else if acceptsAll tail (names.drop (n - tail.length)) then some tail.length
  else if names.getLast? = some [] ∧ used + tail.length < n ∧
      acceptsAll tail (names.drop (n - tail.length - 1)) then some (tail.length + 1)
  else none

/-- The most sections that are placed. -/
def sectionLimit : Nat :=
  200

/-- Whether parts with a globstar accept the names. -/
def acceptsGlobstar (ps : List Part) (names : List (List Char)) : Bool :=
  let sections := sectionsOf ps
  let head := sections.headD []
  let tail := sections.getLastD []
  let body := (sections.drop 1).dropLast
  acceptsFirst head names &&
    match tailSize? tail head.length names with
    | none => false
    | some size =>
      let tailed := !tail.isEmpty
      let room := names.length - size
      if body.isEmpty then
        let free := (names.take room).drop head.length
        !free.any isDots && (tailed || !free.isEmpty)
      else
        body.length ≤ sectionLimit &&
          place tailed (limits room body) head.length (names.drop head.length) = some true

/-- Whether the parts of a variant accept the names of a path. -/
def acceptsPath (ps : List Part) (names : List (List Char)) : Bool :=
  if ps.contains .globstar then acceptsGlobstar ps names else acceptsAll ps names

end Glob

/-- A path pattern: its source, and the parts of its variants. -/
structure Glob where
  source : String
  variants : List (List Glob.Part)
  deriving DecidableEq, Repr

namespace Glob

open Text

/-- The pattern that a source spells. -/
def ofSource (source : String) : Glob :=
  ⟨source, (variantsOf ((pieces '/' source.toList).map lettersOf)).map partsOf⟩

/-- The names of a path; slashes in a row count as one. -/
def namesOf (path : String) : List (List Char) :=
  dropInnerEmpty (pieces '/' path.toList)

/-- Whether a pattern accepts a path.  The empty pattern accepts the empty
path alone. -/
def isMatch (g : Glob) (path : String) : Bool :=
  if g.source.isEmpty then path.isEmpty
  else g.variants.any (acceptsPath · (namesOf path))

end LicenseAudit.Glob
