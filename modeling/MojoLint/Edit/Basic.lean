import MojoLint.Text.Basic

/-!
# Edits

An edit replaces a range of bytes of a file by other bytes. Offsets and lengths are 32-bit words.
-/

namespace MojoLint

/-- Replaces the `length` bytes at `offset` by `replacement`. An edit of length 0 inserts. -/
structure Edit where
  file : Text
  offset : UInt32
  length : UInt32
  replacement : Text
  /-- What the edit does, for a reader. -/
  note : Text
deriving DecidableEq

end MojoLint
