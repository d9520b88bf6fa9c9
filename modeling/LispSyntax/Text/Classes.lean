import LispSyntax.Text.Basic

/-! # Character classes

The classes that decide where a lexeme ends. Blanks and controls are the Unicode properties
`White_Space` and `Cc`; digits are ASCII. A symbol character is anything that is in none of these
classes and is not one of the punctuation marks of the language.
-/

namespace LispSyntax

namespace Text

/-- Whether a character has the Unicode property `White_Space`. -/
def isBlank (c : Char) : Bool :=
  let n := c.toNat
  (9 ≤ n && n ≤ 13) || n == 0x20 || n == 0x85 || n == 0xa0 || n == 0x1680 ||
    (0x2000 ≤ n && n ≤ 0x200a) || n == 0x2028 || n == 0x2029 || n == 0x202f || n == 0x205f ||
    n == 0x3000

/-- Whether a character is in the general category `Cc`. -/
def isControl (c : Char) : Bool :=
  let n := c.toNat
  n ≤ 0x1f || (0x7f ≤ n && n ≤ 0x9f)

def isDigit (c : Char) : Bool :=
  '0' ≤ c && c ≤ '9'

def isHexDigit (c : Char) : Bool :=
  isDigit c || ('a' ≤ c && c ≤ 'f') || ('A' ≤ c && c ≤ 'F')

def punctuation : List Char :=
  ['~', '#', '(', ')', '[', ']', '\x7b', '\x7d', '"', '\x27', '\x60', '\\', ';', ':', '/', ',']

def isSymbolChar (c : Char) : Bool :=
  !(isBlank c || isControl c || isDigit c || punctuation.contains c)

def hexValue? (c : Char) : Option Nat :=
  if isDigit c then some (c.toNat - '0'.toNat)
  else if 'a' ≤ c && c ≤ 'f' then some (c.toNat - 'a'.toNat + 10)
  else if 'A' ≤ c && c ≤ 'F' then some (c.toNat - 'A'.toNat + 10)
  else none

end Text

end LispSyntax
