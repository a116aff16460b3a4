import LicenseAudit.Text.Search

/-!
# Environment variables

The environment gives values to names.  A text may refer to a variable by
its name in braces after a dollar sign; names consist of letters, digits
and underscores, and what looks different is no reference.
-/

namespace LicenseAudit

/-- Environment variables by name. -/
abbrev Environment := List (String × String)

namespace Environment

/-- The variables of a block of settings, each a name and a value with an
equals sign between them, ended by a null character. -/
def ofBlock (block : String) : Environment :=
  (Text.split (Char.ofNat 0) block).filterMap fun setting =>
    (Text.cut? ['='] setting.toList).map fun (name, value) =>
      (String.ofList name, String.ofList value)

/-- Whether a character may stand in the name of a variable that is
referred to. -/
def isNameChar (c : Char) : Bool :=
  c.isAlphanum || c == '_'

/-- The name in braces at the start of a text, and what follows; the text
is what comes after a dollar sign. -/
def reference? (cs : List Char) :
    Option (List Char × { rest : List Char // rest.length < cs.length }) :=
  match cs with
  | '{' :: inner =>
    match h : inner.dropWhile isNameChar with
    | '}' :: rest =>
      let name := inner.takeWhile isNameChar
      if name.isEmpty then none
      else
        have shorter : rest.length < ('{' :: inner).length := by
          have := (List.dropWhile_sublist isNameChar (l := inner)).length_le
          simp [h] at this
          simp; omega
        some (name, ⟨rest, shorter⟩)
    | _ => none
  | _ => none

/-- The text with the values of all variables that it refers to, or the
name of the first one without a value. -/
def expandChars (env : Environment) (cs : List Char) : Except String (List Char) :=
  match cs with
  | [] => .ok []
  | c :: cs =>
    match if c = '$' then reference? cs else none with
    | none => (expandChars env cs).map (c :: ·)
    | some (name, ⟨rest, _⟩) =>
      match env.lookup (String.ofList name) with
      | none => .error (String.ofList name)
      | some value => (expandChars env rest).map (value.toList ++ ·)
termination_by cs.length
decreasing_by all_goals simp_wf <;> omega

/-- The value with the values of all variables that it refers to, or the
name of the first one without a value. -/
def expand (env : Environment) (s : String) : Except String String :=
  (expandChars env s.toList).map String.ofList

end Environment

end LicenseAudit
