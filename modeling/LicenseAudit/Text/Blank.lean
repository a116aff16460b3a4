/-!
# Blanks and line ends

A **blank** is a character that separates words without being part of one,
a **line end** is a character that a line cannot contain.  Every line end
is a blank.  Trimming removes the blanks at the ends of a text and nothing
inside it; the texts are lists of characters, with a `String` form of each
operation for whole values.  A pair of carriage return and line feed is one
line end.
-/

namespace LicenseAudit.Text

/-- The blanks: tab, line feed, the two vertical moves, carriage return,
space, and the space and separator characters of Unicode with the
zero-width no-break space. -/
def isBlank (c : Char) : Bool :=
  let n := c.toNat
  (0x09 ≤ n && n ≤ 0x0D) || n == 0x20 || n == 0xA0 || n == 0x1680 ||
    (0x2000 ≤ n && n ≤ 0x200A) || n == 0x2028 || n == 0x2029 || n == 0x202F ||
    n == 0x205F || n == 0x3000 || n == 0xFEFF

/-- The line ends: line feed, carriage return and the two Unicode
separators. -/
def isLineEnd (c : Char) : Bool :=
  c == '\n' || c == '\r' || c.toNat == 0x2028 || c.toNat == 0x2029

/-- Every line end is a blank. -/
theorem isBlank_of_isLineEnd {c : Char} (h : isLineEnd c = true) :
    isBlank c = true := by
  unfold isLineEnd at h
  simp only [Bool.or_eq_true, beq_iff_eq] at h
  rcases h with ((h | h) | h) | h
  · subst h; decide
  · subst h; decide
  · simp [isBlank, h]
  · simp [isBlank, h]

/-- The text without its leading blanks. -/
def trimLeft (cs : List Char) : List Char :=
  cs.dropWhile isBlank

/-- The text without its trailing blanks. -/
def trimRight (cs : List Char) : List Char :=
  (cs.reverse.dropWhile isBlank).reverse

/-- The text without the blanks at either end. -/
def trim (cs : List Char) : List Char :=
  trimRight (trimLeft cs)

/-- The value without the blanks at either end. -/
def trimmed (s : String) : String :=
  String.ofList (trim s.toList)

/-- The text with a line feed for every carriage return and line feed. -/
def unixText : List Char → List Char
  | [] => []
  | '\r' :: '\n' :: cs => '\n' :: unixText cs
  | c :: cs => c :: unixText cs

end LicenseAudit.Text
