/-!
# Finding and cutting text

First occurrences, prefixes and suffixes of lists of characters, and the
pieces of a text between occurrences of a separator.  Each search returns
the parts around what it found, so that the parts put together again are
the text searched.
-/

namespace LicenseAudit.Text

/-- What follows `start` in `cs`, when `cs` begins with it. -/
def dropStart? : List Char → List Char → Option (List Char)
  | [], cs => some cs
  | _ :: _, [] => none
  | p :: ps, c :: cs => if p = c then dropStart? ps cs else none

/-- A text that begins with `start` is `start` and the rest. -/
theorem dropStart?_eq_some_iff {start cs rest : List Char} :
    dropStart? start cs = some rest ↔ cs = start ++ rest := by
  induction start generalizing cs with
  | nil => simp [dropStart?]
  | cons p ps ih =>
      cases cs with
      | nil => simp [dropStart?]
      | cons c cs =>
          by_cases h : p = c
          · simp [dropStart?, h, ih]
          · simp [dropStart?, h, Ne.symm h]

/-- What precedes `ending` in `cs`, when `cs` ends with it. -/
def dropEnd? (ending cs : List Char) : Option (List Char) :=
  (dropStart? ending.reverse cs.reverse).map List.reverse

/-- The parts of `cs` before and after the first occurrence of `mark`. -/
def cut? (mark : List Char) : List Char → Option (List Char × List Char)
  | [] => if mark.isEmpty then some ([], []) else none
  | c :: cs =>
    match dropStart? mark (c :: cs) with
    | some rest => some ([], rest)
    | none => (cut? mark cs).map fun (before, rest) => (c :: before, rest)

/-- The parts found around a mark put together again are the text. -/
theorem eq_append_of_cut? {mark cs before rest : List Char}
    (h : cut? mark cs = some (before, rest)) : cs = before ++ (mark ++ rest) := by
  induction cs generalizing before with
  | nil =>
      unfold cut? at h
      split at h
      · next hm =>
          cases mark with
          | nil => cases h; rfl
          | cons _ _ => simp at hm
      · cases h
  | cons c cs ih =>
      unfold cut? at h
      split at h
      · next r hr =>
          cases h
          simpa using dropStart?_eq_some_iff.1 hr
      · cases hc : cut? mark cs with
        | none => simp [hc] at h
        | some parts =>
            obtain ⟨b, r⟩ := parts
            simp only [hc, Option.map_some, Option.some.injEq, Prod.mk.injEq] at h
            obtain ⟨rfl, rfl⟩ := h
            simp [ih hc]

/-- Whether `mark` occurs in `cs`. -/
def occurs (mark cs : List Char) : Bool :=
  (cut? mark cs).isSome

/-- The pieces of a text between the occurrences of one character: one
more than there are occurrences. -/
def pieces (separator : Char) : List Char → List (List Char)
  | [] => [[]]
  | c :: cs =>
    if c = separator then [] :: pieces separator cs
    else
      match pieces separator cs with
      | [] => [[c]]
      | piece :: rest => (c :: piece) :: rest

/-- A text has at least one piece. -/
theorem pieces_ne_nil (separator : Char) (cs : List Char) :
    pieces separator cs ≠ [] := by
  cases cs with
  | nil => simp [pieces]
  | cons c cs =>
      unfold pieces
      split
      · simp
      · split <;> simp

/-- The pieces with `separator` put back between them. -/
def joined (separator : List Char) : List (List Char) → List Char
  | [] => []
  | [piece] => piece
  | piece :: rest => piece ++ (separator ++ joined separator rest)

/-- Putting the pieces together again restores the text. -/
theorem joined_pieces (separator : Char) (cs : List Char) :
    joined [separator] (pieces separator cs) = cs := by
  induction cs with
  | nil => rfl
  | cons c cs ih =>
      unfold pieces
      split
      · next h =>
          subst h
          cases hp : pieces c cs with
          | nil => exact absurd hp (pieces_ne_nil c cs)
          | cons p ps => rw [hp] at ih; simp [joined, ih]
      · cases hp : pieces separator cs with
        | nil => exact absurd hp (pieces_ne_nil separator cs)
        | cons p ps =>
            rw [hp] at ih
            cases ps with
            | nil => simpa [joined] using ih
            | cons q qs => simpa [joined] using ih

/-- A value cut into the pieces between the occurrences of one character. -/
def split (separator : Char) (s : String) : List String :=
  (pieces separator s.toList).map String.ofList

/-- Whether a value begins with `start`. -/
def startsWith (s start : String) : Bool :=
  (dropStart? start.toList s.toList).isSome

/-- Whether a value ends with `ending`. -/
def endsWith (s ending : String) : Bool :=
  (dropEnd? ending.toList s.toList).isSome

end LicenseAudit.Text
