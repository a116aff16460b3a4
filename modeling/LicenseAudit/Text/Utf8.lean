/-!
# Reading bytes as UTF-8

Any list of bytes is read as a text.  A byte that cannot start a character,
and a character that breaks off, are each read as one replacement
character; the byte at which a character breaks off is then read afresh.
Reading goes byte by byte and remembers at most the character in progress.
-/

namespace LicenseAudit.Text.Utf8

/-- What stands for bytes that are no character. -/
def replacement : Char := '\uFFFD'

/-- A character in progress: how many bytes it still needs, the range of
the next of them, and the value of those read. -/
structure Pending where
  left : Nat
  low : Nat
  high : Nat
  value : Nat
  deriving DecidableEq, Repr

/-- What a byte leads to: a whole character, a character in progress, or
nothing. -/
inductive Outcome where
  | whole (c : Char)
  | pending (p : Pending)
  | broken
  deriving DecidableEq, Repr

/-- What a byte leads to at the start of a character.  The ranges of the
second byte leave out the longer forms of shorter characters, the
surrogates, and what lies beyond the last character. -/
def start (b : Nat) : Outcome :=
  if b < 0x80 then .whole (Char.ofNat b)
  else if b < 0xC2 then .broken
  else if b < 0xE0 then .pending ⟨1, 0x80, 0xBF, b - 0xC0⟩
  else if b < 0xF0 then
    .pending ⟨2, if b = 0xE0 then 0xA0 else 0x80, if b = 0xED then 0x9F else 0xBF, b - 0xE0⟩
  else if b < 0xF5 then
    .pending ⟨3, if b = 0xF0 then 0x90 else 0x80, if b = 0xF4 then 0x8F else 0xBF, b - 0xF0⟩
  else .broken

/-- What a byte leads to in the middle of a character. -/
def Pending.next (p : Pending) (b : Nat) : Outcome :=
  if p.low ≤ b ∧ b ≤ p.high then
    let value := p.value * 64 + (b - 0x80)
    if p.left = 1 then .whole (Char.ofNat value) else .pending ⟨p.left - 1, 0x80, 0xBF, value⟩
  else .broken

/-- The text of bytes that follow a character in progress. -/
def decodeAfter : Option Pending → List UInt8 → List Char
  | none, [] => []
  | some _, [] => [replacement]
  | none, b :: bs => fresh b bs
  | some p, b :: bs =>
    match p.next b.toNat with
    | .whole c => c :: decodeAfter none bs
    | .pending q => decodeAfter (some q) bs
    | .broken => replacement :: fresh b bs
where
  /-- The text of bytes of which the first starts a character. -/
  fresh (b : UInt8) (bs : List UInt8) : List Char :=
    match start b.toNat with
    | .whole c => c :: decodeAfter none bs
    | .pending q => decodeAfter (some q) bs
    | .broken => replacement :: decodeAfter none bs

/-- The text of some bytes. -/
def decode (bytes : List UInt8) : List Char :=
  decodeAfter none bytes

/-- The bytes of a text. -/
def encode (s : String) : List UInt8 :=
  s.toUTF8.data.toList

end LicenseAudit.Text.Utf8
