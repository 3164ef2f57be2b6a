/-!
# Byte classes

Text is a sequence of bytes, and every class below is a class of single bytes. The letters and
digits are the ASCII ones: a byte from `0x80` on is in no class, so the bytes of a multi-byte
character are each treated as an unknown sign.
-/

namespace MojoLint.Byte

/-! ## Named bytes -/

/-- The NUL byte, which no path can hold. -/
abbrev nul : UInt8 := 0

/-- The tabulator. -/
abbrev tab : UInt8 := 9

/-- The line feed, which ends a line. -/
abbrev lf : UInt8 := 10

/-- The carriage return, which belongs to the end of a line when it stands before it. -/
abbrev cr : UInt8 := 13

/-- The space. -/
abbrev space : UInt8 := 32

/-- The exclamation mark. -/
abbrev bang : UInt8 := 33

/-- The double quote. -/
abbrev quote : UInt8 := 34

/-- The number sign, which opens a comment. -/
abbrev hash : UInt8 := 35

/-- The single quote. -/
abbrev apostrophe : UInt8 := 39

/-- The full stop. -/
abbrev dot : UInt8 := 46

/-- The slash, which separates the names of a path. -/
abbrev slash : UInt8 := 47

/-- The digit zero. -/
abbrev zero : UInt8 := 48

/-- The less-than sign. -/
abbrev less : UInt8 := 60

/-- The equals sign. -/
abbrev equals : UInt8 := 61

/-- The greater-than sign. -/
abbrev greater : UInt8 := 62

/-- The backslash, which escapes the byte after it inside a string literal. -/
abbrev backslash : UInt8 := 92

/-- The low line. -/
abbrev underscore : UInt8 := 95

/-! ## Classes -/

/-- An upper-case ASCII letter. -/
def isUpper (b : UInt8) : Bool := 65 ≤ b && b ≤ 90

/-- A lower-case ASCII letter. -/
def isLower (b : UInt8) : Bool := 97 ≤ b && b ≤ 122

/-- A decimal digit. -/
def isDigit (b : UInt8) : Bool := 48 ≤ b && b ≤ 57

/-- An ASCII letter. -/
def isAlpha (b : UInt8) : Bool := isUpper b || isLower b

/-- An ASCII letter or a digit. -/
def isAlnum (b : UInt8) : Bool := isAlpha b || isDigit b

/-- A byte that can start an identifier. -/
def isIdentStart (b : UInt8) : Bool := isAlpha b || b == underscore

/-- A byte that can continue an identifier. -/
def isIdentPart (b : UInt8) : Bool := isAlnum b || b == underscore

/-- A byte that can continue a number: digits, exponents, suffixes and points alike. -/
def isNumberPart (b : UInt8) : Bool := isIdentPart b || b == dot

/-- White space at the end of a text: the space and the control bytes from tab to carriage
return, the vertical tab and the form feed among them. -/
def isSpace (b : UInt8) : Bool := b == space || (tab ≤ b && b ≤ cr)

/-- A byte the lexer passes over between two tokens. Unlike `isSpace` it has neither the vertical
tab nor the form feed: those are tokens of their own. -/
def isGap (b : UInt8) : Bool := b == space || b == tab || b == cr

/-- A byte of indentation. -/
def isIndent (b : UInt8) : Bool := b == space || b == tab

/-- A quote that can open a string literal. -/
def isQuote (b : UInt8) : Bool := b == quote || b == apostrophe

/-- A letter that may stand before the quotes of a raw, byte or formatted literal. -/
def isLiteralLetter (b : UInt8) : Bool :=
  b == 114 || b == 82 || b == 98 || b == 66 || b == 102 || b == 70

end MojoLint.Byte
