import LispSyntax.Text.Basic

/-! # Lines and columns

Lines end at a line feed and nowhere else. Lines and columns count from zero, columns in bytes.
-/

namespace LispSyntax

structure LineCol where
  line : Nat
  col : Nat
deriving DecidableEq, Repr

namespace Text

def inLine (c : Char) : Bool :=
  c != '\n'

def lastLine (text : Text) : Text :=
  (text.reverse.takeWhile inLine).reverse

def firstLine (text : Text) : Text :=
  text.takeWhile inLine

/-- Line and column of a byte offset that is a character boundary of the text. -/
def lineCol? (text : Text) (offset : Nat) : Option LineCol :=
  (take? text offset).map fun before => ⟨before.count '\n', size (lastLine before)⟩

def lineAt? (text : Text) (offset : Nat) : Option Text := do
  let before ← take? text offset
  let after ← drop? text offset
  return lastLine before ++ firstLine after

end Text

end LispSyntax
