import LispSyntax.Text.Classes

/-! # Quoted text

Listings show text between double quotes, with the characters that would not be seen, or would merge
with their neighbours, written as escapes: `\n`, `\r`, `\t` and `\0` by name, the rest by code point.
The classes of such characters are tables of code point ranges: separators, format characters,
private use, and the blocks of combining marks.
-/

namespace LispSyntax

namespace Text

/-- Code points that leave no mark of their own: separators other than the space, format characters,
private use and the last planes. -/
def invisibleRanges : List (Nat × Nat) :=
  [(0xa0, 0xa0), (0xad, 0xad), (0x600, 0x605), (0x61c, 0x61c), (0x6dd, 0x6dd), (0x70f, 0x70f),
    (0x890, 0x891), (0x8e2, 0x8e2), (0x1680, 0x1680), (0x180e, 0x180e), (0x2000, 0x200f),
    (0x2028, 0x202f), (0x205f, 0x206f), (0x3000, 0x3000), (0xe000, 0xf8ff), (0xfeff, 0xfeff),
    (0xfff0, 0xfffb), (0xfffe, 0xffff), (0x110bd, 0x110bd), (0x110cd, 0x110cd),
    (0x13430, 0x1343f), (0x1bca0, 0x1bca3), (0x1d173, 0x1d17a), (0xe0001, 0x10ffff)]

/-- Blocks of marks that combine with the character before them. -/
def combiningRanges : List (Nat × Nat) :=
  [(0x300, 0x36f), (0x483, 0x489), (0x1ab0, 0x1ace), (0x1dc0, 0x1dff), (0x20d0, 0x20f0),
    (0xfe00, 0xfe0f), (0xfe20, 0xfe2f)]

def inRanges (ranges : List (Nat × Nat)) (c : Char) : Bool :=
  ranges.any fun (lo, hi) => decide (lo ≤ c.toNat) && decide (c.toNat ≤ hi)

def isHidden (c : Char) : Bool :=
  isControl c || inRanges invisibleRanges c || inRanges combiningRanges c

def escape (c : Char) : Text :=
  if c = '"' then ['\\', '"']
  else if c = '\\' then ['\\', '\\']
  else if c = '\n' then ['\\', 'n']
  else if c = '\r' then ['\\', 'r']
  else if c = '\t' then ['\\', 't']
  else if c = '\x00' then ['\\', '0']
  else if isHidden c then ['\\', 'u', '\x7b'] ++ Nat.toDigits 16 c.toNat ++ ['\x7d']
  else [c]

def quoted (text : Text) : String :=
  String.ofList ('"' :: text.flatMap escape ++ ['"'])

end Text

end LispSyntax
