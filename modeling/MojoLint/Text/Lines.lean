import MojoLint.Text.Basic

/-!
# Lines of a text

`Line.split` cuts a text after every line feed and keeps what it cuts: a line is its text and the
bytes that end it, and the lines put together again are the whole text. A carriage return right
before the end of a line belongs to the ending, also at the end of a text whose last line has no
line feed.
-/

namespace MojoLint

/-- One line of a text. -/
structure Line where
  /-- The bytes of the line without its ending. -/
  text : Text
  /-- The bytes that end the line: nothing, a line feed, a carriage return, or both. -/
  ending : Text
deriving DecidableEq

namespace Line

/-- The bytes of the line, its ending included. -/
def bytes (l : Line) : Text := l.text ++ l.ending

/-- The bytes that the line takes up in its text. -/
def size (l : Line) : Nat := l.text.length + l.ending.length

/-- The line made of `body` and the ending `feed`, where a carriage return at the end of `body`
is part of the ending. -/
def close (body feed : Text) : Line :=
  if body.getLast? = some Byte.cr then ⟨body.dropLast, Byte.cr :: feed⟩ else ⟨body, feed⟩

/-- The lines of a text. A text that ends in a line feed has no empty line after it, and the
empty text has no line. -/
def split (t : Text) : List Line :=
  match t with
  | [] => []
  | b :: s =>
    match h : (b :: s).dropWhile (· != Byte.lf) with
    | [] => [close (b :: s) []]
    | _ :: rest =>
      have shorter : rest.length < (b :: s).length := by
        have := (List.dropWhile_suffix (l := b :: s) (· != Byte.lf)).length_le
        rw [h] at this
        exact this
      close ((b :: s).takeWhile (· != Byte.lf)) [Byte.lf] :: split rest
termination_by t.length
decreasing_by exact shorter

/-- Where the lines start when the first one starts at `pos`, and after them where the last one
ends. Offsets are 32-bit words and wrap. -/
def starts (pos : Nat) : List Line → List UInt32
  | [] => [pos.toUInt32]
  | l :: ls => pos.toUInt32 :: starts (pos + l.size) ls

/-! ## Nothing is lost -/

theorem bytes_close (body feed : Text) : (close body feed).bytes = body ++ feed := by
  unfold close bytes
  split
  · rename_i h
    obtain ⟨init, rfl⟩ := List.getLast?_eq_some_iff.1 h
    simp
  · rfl

/-- The lines of a text put together are the text. -/
theorem flatMap_bytes_split (t : Text) : (split t).flatMap bytes = t := by
  fun_induction split t with
  | case1 => rfl
  | case2 b s h => simp [bytes_close]
  | case3 b s head rest h shorter ih =>
    have feed : head = Byte.lf := by
      have := List.head?_dropWhile_not (· != Byte.lf) (b :: s)
      simpa [h] using this
    subst feed
    rw [List.flatMap_cons, bytes_close, ih, List.append_assoc, List.singleton_append, ← h,
      List.takeWhile_append_dropWhile]

@[simp] theorem length_starts (pos : Nat) (ls : List Line) :
    (starts pos ls).length = ls.length + 1 := by
  induction ls generalizing pos with
  | nil => rfl
  | cons l ls ih => simp [starts, ih]

/-! ## What a line looks like -/

/-- The width of a line's indentation, a tab counting four. It is a 32-bit word and wraps. -/
def indent (line : Text) : UInt32 :=
  (line.takeWhile Byte.isIndent).foldl (fun n b => n + if b = Byte.tab then 4 else 1) 0

/-- Whether a line holds white space only. -/
def isBlank (line : Text) : Bool := (Text.trim line).isEmpty

/-- Whether a line is blank or holds nothing but a comment. -/
def isBlankOrComment (line : Text) : Bool :=
  isBlank line || (Text.trim line).head? == some Byte.hash

end Line

/-- The texts of the lines, without their endings. -/
def Text.lines (t : Text) : List Text := (Line.split t).map Line.text

end MojoLint
