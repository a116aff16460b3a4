import LicenseAudit.Catalog
import LicenseAudit.Text.Blank
import LicenseAudit.Text.Units

/-!
# The words of an expression

A text is read as a sequence of **tokens**: the three keywords, the two
parentheses, a plus sign attached to an identifier, identifiers, and a few
reserved words that no identifier may equal.  Blanks separate tokens and
mean nothing else.  Each token carries its position, counted in 16-bit
units from the start of the text.
-/

namespace LicenseAudit.Expression

open Text

/-- A token of an expression. -/
inductive Token where
  | word (id : String)
  | reserved (text : String)
  | and
  | or
  | with
  | opening
  | closing
  | plus
  deriving DecidableEq, Repr

/-- A token and where it starts. -/
structure Placed where
  token : Token
  position : Nat
  deriving DecidableEq, Repr

/-- The token as it is written. -/
def Token.text : Token → String
  | .word id => id
  | .reserved text => text
  | .and => "AND"
  | .or => "OR"
  | .with => "WITH"
  | .opening => "("
  | .closing => ")"
  | .plus => "+"

/-- Why a text is no expression. -/
inductive Fault where
  | empty
  | invalidCharacter (c : Char)
  | invalidIdentifier (word : String)
  | strayPlus
  | unexpected (token : Token)
  | unexpectedEnd
  | exceptionToGroup
  | missingException
  | missingClosing
  deriving DecidableEq, Repr

/-- A fault and where it shows. -/
structure SyntaxError where
  fault : Fault
  position : Nat
  deriving DecidableEq, Repr

/-- A character beyond the first plane has no single unit to show, and the
replacement character stands for it. -/
def shownUnit (c : Char) : Char :=
  if width c = 1 then c else Char.ofNat 0xFFFD

/-- The sentence that reports a fault. -/
def Fault.message : Fault → String
  | .empty => "Empty license expression"
  | .invalidCharacter c => "Invalid character '" ++ String.ofList [shownUnit c] ++ "'"
  | .invalidIdentifier word => "Invalid identifier '" ++ word ++ "'"
  | .strayPlus => "'+' must directly follow a license identifier"
  | .unexpected token => "Unexpected '" ++ token.text ++ "'"
  | .unexpectedEnd => "Unexpected end of expression"
  | .exceptionToGroup => "WITH must follow a single license"
  | .missingException => "Expected an exception after WITH"
  | .missingClosing => "Expected ')'"

/-- The characters that an identifier may start with. -/
def isIdStart (c : Char) : Bool :=
  c.isAlphanum || c == '.' || c == '-'

/-- The characters that continue a word. -/
def isWordChar (c : Char) : Bool :=
  isIdStart c || c == ':'

/-- The words refused as identifiers though they are spelled like one. -/
def reservedWords : List String :=
  ["constructor", "toString", "valueOf", "hasOwnProperty", "isPrototypeOf",
    "toLocaleString", "propertyIsEnumerable"]

/-- The token that a whole word is, if it is one: a colon is allowed in a
license reference only. -/
def Token.ofWord? (word : List Char) : Option Token :=
  if word.contains ':' && !isReferenceText word then none
  else
    let text := String.ofList word
    some <|
      if text = "AND" then .and
      else if text = "OR" then .or
      else if text = "WITH" then .with
      else if reservedWords.contains text then .reserved text
      else .word text

/-- Whether a plus sign may be attached to a token. -/
def Token.takesPlus : Token → Bool
  | .word _ => true
  | _ => false

/-- The tokens of the text `cs`, which starts at `position`.  `attachable`
says whether an identifier ended just before it. -/
def tokensFrom (attachable : Bool) (position : Nat) (cs : List Char) :
    Except SyntaxError (List Placed) :=
  match cs with
  | [] => .ok []
  | c :: rest =>
    if isBlank c then tokensFrom false (position + 1) rest
    else if c = '(' then
      (⟨.opening, position⟩ :: ·) <$> tokensFrom false (position + 1) rest
    else if c = ')' then
      (⟨.closing, position⟩ :: ·) <$> tokensFrom false (position + 1) rest
    else if c = '+' then
      if attachable then (⟨.plus, position⟩ :: ·) <$> tokensFrom false (position + 1) rest
      else .error ⟨.strayPlus, position⟩
    else if isIdStart c then
      let word := c :: rest.takeWhile isWordChar
      match Token.ofWord? word with
      | none => .error ⟨.invalidIdentifier (String.ofList word), position⟩
      | some token =>
        (⟨token, position⟩ :: ·) <$>
          tokensFrom token.takesPlus (position + word.length) (rest.dropWhile isWordChar)
    else .error ⟨.invalidCharacter c, position⟩
termination_by cs.length
decreasing_by
  all_goals simp_wf
  have h := (List.dropWhile_suffix isWordChar (l := rest)).length_le
  omega

/-- The tokens of a text. -/
def tokens (text : List Char) : Except SyntaxError (List Placed) :=
  tokensFrom false 0 text

end LicenseAudit.Expression
