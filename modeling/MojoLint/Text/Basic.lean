import MojoLint.Text.Byte

/-!
# Text

A text is the list of its bytes. Nothing requires them to be valid UTF-8: a source file, a path
and every message that quotes one of them may hold any bytes, and columns, offsets and lengths
count bytes.
-/

namespace MojoLint

/-- A byte string. -/
abbrev Text := List UInt8

namespace Text

/-- The UTF-8 bytes of a string. -/
def ofString (s : String) : Text := s.toList.flatMap String.utf8EncodeChar

/-- The bytes of a literal, from the characters it is written with. -/
theorem ofString_ofList (cs : List Char) :
    ofString (String.ofList cs) = cs.flatMap String.utf8EncodeChar := by
  rw [ofString, String.toList_ofList]

end Text

/-- A string stands for its UTF-8 bytes wherever a text is expected. -/
scoped instance : Coe String Text := ⟨Text.ofString⟩

namespace Text

/-- The decimal digits of a number. -/
def ofNat (n : Nat) : Text := (Nat.toDigits 10 n).map Char.toUInt8

/-- The decimal digits of an integer, after a minus sign when it is negative. -/
def ofInt : Int → Text
  | .ofNat n => ofNat n
  | .negSucc n => "-" ++ ofNat (n + 1)

/-- The text without the white space at its start. -/
def trimLeft (t : Text) : Text := t.dropWhile Byte.isSpace

/-- The text without the white space at its end. -/
def trimRight (t : Text) : Text := (t.reverse.dropWhile Byte.isSpace).reverse

/-- The text without the white space around it. -/
def trim (t : Text) : Text := trimRight (trimLeft t)

/-- Whether the text begins with `head`. -/
def startsWith (t head : Text) : Bool := head.isPrefixOf t

/-- Whether the text ends in `tail`. -/
def endsWith (t tail : Text) : Bool := tail.isSuffixOf t

/-- The position of the first occurrence of `needle`. -/
def find (needle : Text) : Text → Option Nat
  | [] => if needle.isEmpty then some 0 else none
  | b :: t => if needle.isPrefixOf (b :: t) then some 0 else (find needle t).map (· + 1)

/-- Whether `needle` occurs in the text. -/
def contains (t needle : Text) : Bool := (find needle t).isSome

end Text

end MojoLint
