import ModuleLowering.Text.Numeric

namespace ModuleLowering.Text

def isIdentifierStart (c : Char) : Bool :=
  c.isAlpha || c == '$' || c == '_' || (128 ≤ c.toNat && isAlphabeticBeyondAscii c)

def isIdentifierPart (c : Char) : Bool :=
  isIdentifierStart c || c.isDigit || c == '\u200C' || c == '\u200D' ||
    (128 ≤ c.toNat && isNumericBeyondAscii c)

def isJsxNamePart (c : Char) : Bool := isIdentifierPart c || c == '-'

def isLineBreak (c : Char) : Bool :=
  c == '\n' || c == '\r' || c == '\u2028' || c == '\u2029'

/-- Line feed and carriage return, the only characters that end a line comment, a string or a regular
expression. -/
def isNewline (c : Char) : Bool := c == '\n' || c == '\r'

def isBlank (c : Char) : Bool :=
  c == ' ' || c == '\t' || c == '\x0B' || c == '\x0C' || c == '\u00A0' || c == '\uFEFF' ||
    c == '\u1680' || c == '\u3000' || c == '\u202F' || c == '\u205F' ||
    (0x2000 ≤ c.toNat && c.toNat ≤ 0x200A)

def isWhiteSpace (c : Char) : Bool :=
  (9 ≤ c.toNat && c.toNat ≤ 13) || c == ' ' || c == '\u0085' || c == '\u00A0' || c == '\u1680' ||
    (0x2000 ≤ c.toNat && c.toNat ≤ 0x200A) || c == '\u2028' || c == '\u2029' || c == '\u202F' ||
    c == '\u205F' || c == '\u3000'

theorem isIdentifierPart_of_start {c : Char} (h : isIdentifierStart c = true) :
    isIdentifierPart c = true := by simp [isIdentifierPart, h]

theorem isJsxNamePart_of_start {c : Char} (h : isIdentifierStart c = true) :
    isJsxNamePart c = true := by simp [isJsxNamePart, isIdentifierPart_of_start h]

theorem isLineBreak_of_isNewline {c : Char} (h : isNewline c = true) : isLineBreak c = true := by
  simp only [isNewline, Bool.or_eq_true] at h
  rcases h with h | h <;> simp [isLineBreak, h]

end ModuleLowering.Text
