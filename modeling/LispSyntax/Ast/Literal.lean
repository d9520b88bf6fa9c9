import LispSyntax.Ast.Shape
import LispSyntax.Number.Read

/-! # Literals

The values of literals, read from the text of their tokens. A value is missing where the token is of
another kind, where a number is out of range, or where the text was already faulty for the scanner.
-/

namespace LispSyntax

inductive LiteralKind where
  | nil | bool | char | string | address | bytes | long | float | keyword
deriving DecidableEq, Repr

namespace LiteralKind

def label : LiteralKind → String
  | nil => "Nil"
  | bool => "Bool"
  | char => "Char"
  | string => "String"
  | address => "Address"
  | bytes => "Bytes"
  | long => "Long"
  | float => "Float"
  | keyword => "Keyword"

def ofToken? : Kind → Option LiteralKind
  | .nilWord => some nil
  | .trueWord | .falseWord => some bool
  | .char => some char
  | .string => some string
  | .address => some address
  | .bytes => some bytes
  | .int => some long
  | .float => some float
  | .keyword => some keyword
  | _ => none

end LiteralKind

/-! ## Reading the text of a token -/

namespace Literal

def dropPoint (text : Text) : Text :=
  if text.getLast? = some '.' then text.dropLast else text

/-- A whole number, perhaps with a point at its end. -/
def readLong? (text : Text) : Option Int :=
  Number.long? (dropPoint text)

def readFloat? (text : Text) : Option Binary64 :=
  if text = "##NaN".toList then some Binary64.nan
  else if text = "##Inf".toList then some Binary64.infinity
  else if text = "##-Inf".toList then some Binary64.infinity.negate
  else Number.float? text

def namedCharacters : List (Text × Char) :=
  [("backspace".toList, '\x08'), ("formfeed".toList, '\x0c'), ("newline".toList, '\n'),
    ("return".toList, '\r'), ("space".toList, ' '), ("tab".toList, '\t')]

def only? : Text → Option Char
  | [c] => some c
  | _ => none

/-- A character after its backslash: a name, `u` and a code of four bytes, or a character by itself. -/
def readEscaped? (text : Text) : Option Char :=
  match namedCharacters.lookup text with
  | some c => some c
  | none =>
    match text with
    | 'u' :: code =>
      if Text.size code = 4 then (Number.hex? code).bind Number.character? else only? text
    | _ => only? text

def readChar? (text : Text) : Option Char :=
  (Text.after? ['\\'] text).bind readEscaped?

def unescapeChar : Char → Char
  | 'n' => '\n'
  | 't' => '\t'
  | 'r' => '\r'
  | 'b' => '\x08'
  | 'f' => '\x0c'
  | c => c

def unescape? : Text → Option Text
  | [] => some []
  | '\\' :: 'u' :: a :: b :: c :: d :: cs => do
    let code ← Number.hex? [a, b, c, d]
    let char ← Number.character? code
    return char :: (← unescape? cs)
  | '\\' :: c :: cs => if c = 'u' then none else (unescape? cs).map (unescapeChar c :: ·)
  | c :: cs => if c = '\\' then none else (unescape? cs).map (c :: ·)

/-- Whether a backslash at the end of the text escapes what comes next. -/
def endsEscaping (body : Text) : Bool :=
  (body.reverse.takeWhile (· == '\\')).length % 2 == 1

def dropQuote? (text : Text) : Option Text :=
  if text.getLast? = some '"' then some text.dropLast else none

def readString? (text : Text) : Option Text := do
  let body ← (Text.after? ['"'] text).bind dropQuote?
  if endsEscaping body then none else unescape? body

def readAddress? (text : Text) : Option Nat :=
  (Text.after? ['#'] text).bind Number.word?

def hexBytes? : Text → Option (List Nat)
  | [] => some []
  | [_] => none
  | a :: b :: cs => do
    let byte ← Number.hex? [a, b]
    return byte :: (← hexBytes? cs)

def readBytes? (text : Text) : Option (List Nat) :=
  (Text.after? ['0', 'x'] text).bind hexBytes?

def readKeyword? (text : Text) : Option Text :=
  Text.after? [':'] text

end Literal

abbrev Literal := Typed .literal

namespace Literal

def token? (l : Literal) : Option LeafView :=
  l.view.tokens.find? (·.kind.isLiteralToken)

def kind? (l : Literal) : Option LiteralKind :=
  l.token?.bind fun t => LiteralKind.ofToken? t.kind

def readAs {α : Type} (l : Literal) (kind : LiteralKind) (read : Text → Option α) :
    Except Fault (Option α) :=
  match l.token? with
  | none => .ok none
  | some t =>
    if LiteralKind.ofToken? t.kind = some kind then t.leaf.trimmed.map read else .ok none

def asBool (l : Literal) : Option Bool :=
  match l.token?.map LeafView.kind with
  | some .trueWord => some true
  | some .falseWord => some false
  | _ => none

def asLong (l : Literal) : Except Fault (Option Int) :=
  l.readAs .long readLong?

def asFloat (l : Literal) : Except Fault (Option Binary64) :=
  l.readAs .float readFloat?

def asChar (l : Literal) : Except Fault (Option Char) :=
  l.readAs .char readChar?

def asString (l : Literal) : Except Fault (Option Text) :=
  l.readAs .string readString?

def asAddress (l : Literal) : Except Fault (Option Nat) :=
  l.readAs .address readAddress?

def asBytes (l : Literal) : Except Fault (Option (List Nat)) :=
  l.readAs .bytes readBytes?

def asKeyword (l : Literal) : Except Fault (Option Text) :=
  l.readAs .keyword readKeyword?

end Literal

end LispSyntax
