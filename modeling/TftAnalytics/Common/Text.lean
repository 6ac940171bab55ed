import TftAnalytics.Common.Bytes
import Mathlib.Data.List.DropRight
import Mathlib.Data.List.Infix
/-!
# Common — strings of characters

The functions of Python's `str` that are used where the characters of a
string are looked at, on lists of characters.
-/

namespace TftAnalytics

namespace Text

/-- `isspace` of one character. -/
def isSpace (c : Char) : Bool :=
  c.toNat ∈ [9, 10, 11, 12, 13, 28, 29, 30, 31, 32, 0x85, 0xA0, 0x1680, 0x2028, 0x2029, 0x202F,
    0x205F, 0x3000] ∨ 0x2000 ≤ c.toNat ∧ c.toNat ≤ 0x200A

/-- `strip`. -/
def strip (s : List Char) : List Char := (s.dropWhile isSpace).rdropWhile isSpace

/-- `lower`, but for the letters beyond ASCII: its callers look for nothing
that one of those becomes. -/
def lower (s : List Char) : List Char := s.map Char.toLower

/-- `split()`: the words between white space. -/
def split (s : List Char) : List (List Char) := (s.splitOnP isSpace).filter (· ≠ [])

/-- `replace(word, "")`, for a word that is not empty; `n` characters are
still to be skipped. -/
def without (word : List Char) : ℕ → List Char → List Char
  | _, [] => []
  | n + 1, _ :: s => without word n s
  | 0, c :: s =>
    if word <+: c :: s then without word (word.length - 1) s else c :: without word 0 s

/-- The encoding in UTF-8. -/
def utf8 (s : List Char) : Bytes := s.flatMap String.utf8EncodeChar

end Text

end TftAnalytics
