import LispSyntax.Number.Read
import LispSyntax.Registry

/-! # Registry files

A registry file is JSON: an object whose only fields are `symbols` and `functions`, each at most once, or
an array of the two in this order. Both are arrays of strings and both may be left out. The text is first
cut into marks and strings, then matched against the few shapes there are.
-/

namespace LispSyntax

namespace Registry

namespace File

def code? (a b c d : Char) : Option Nat :=
  Number.digits? 16 [a, b, c, d]

def isHighHalf (code : Nat) : Bool :=
  decide (0xd800 ≤ code) && decide (code ≤ 0xdbff)

def isLowHalf (code : Nat) : Bool :=
  decide (0xdc00 ≤ code) && decide (code ≤ 0xdfff)

def pair? (high low : Nat) : Option Char :=
  if isHighHalf high && isLowHalf low then
    Number.character? (0x10000 + (high - 0xd800) * 0x400 + (low - 0xdc00))
  else none

def escape? : Char → Option Char
  | '"' => some '"'
  | '\\' => some '\\'
  | '/' => some '/'
  | 'b' => some '\x08'
  | 'f' => some '\x0c'
  | 'n' => some '\n'
  | 'r' => some '\r'
  | 't' => some '\t'
  | _ => none

/-- The contents of a string after its opening quote, and what follows its closing quote. Controls below the
space have to be escaped, and halves of a pair have to stand together. -/
def string? : Text → Option (Text × Text)
  | [] => none
  | '"' :: cs => some ([], cs)
  | '\\' :: 'u' :: a :: b :: c :: d :: cs =>
    match code? a b c d with
    | none => none
    | some code =>
      match Number.character? code with
      | some char => (string? cs).map fun (s, rest) => (char :: s, rest)
      | none =>
        match cs with
        | '\\' :: 'u' :: e :: f :: g :: h :: cs =>
          match (code? e f g h).bind (pair? code) with
          | some char => (string? cs).map fun (s, rest) => (char :: s, rest)
          | none => none
        | _ => none
  | '\\' :: c :: cs =>
    match escape? c with
    | some char => (string? cs).map fun (s, rest) => (char :: s, rest)
    | none => none
  | c :: cs => if c < ' ' then none else (string? cs).map fun (s, rest) => (c :: s, rest)

inductive Mark where
  | openObject
  | closeObject
  | openArray
  | closeArray
  | colon
  | comma
  | string (contents : Text)
deriving DecidableEq, Repr

def mark? : Char → Option Mark
  | '\x7b' => some .openObject
  | '\x7d' => some .closeObject
  | '[' => some .openArray
  | ']' => some .closeArray
  | ':' => some .colon
  | ',' => some .comma
  | _ => none

def isGap (c : Char) : Bool :=
  c == ' ' || c == '\t' || c == '\n' || c == '\r'

/-- The marks and strings of a text, at most `turns` of them. -/
def marks? : Nat → Text → Option (List Mark)
  | _, [] => some []
  | 0, _ :: _ => none
  | turns + 1, c :: cs =>
    if isGap c then marks? turns cs
    else if c = '"' then
      match string? cs with
      | some (contents, rest) => (marks? turns rest).map (.string contents :: ·)
      | none => none
    else
      match mark? c with
      | some mark => (marks? turns cs).map (mark :: ·)
      | none => none

def moreStrings? : List Mark → Option (List Text × List Mark)
  | .closeArray :: rest => some ([], rest)
  | .comma :: .string s :: rest => (moreStrings? rest).map fun (ss, rest) => (s :: ss, rest)
  | _ => none

def strings? : List Mark → Option (List Text × List Mark)
  | .openArray :: .closeArray :: rest => some ([], rest)
  | .openArray :: .string s :: rest => (moreStrings? rest).map fun (ss, rest) => (s :: ss, rest)
  | _ => none

def field? (name : Text) : Option Builtin :=
  if name = "symbols".toList then some .symbol
  else if name = "functions".toList then some .function
  else none

def entry? : List Mark → Option (Builtin × List Text × List Mark)
  | .string name :: .colon :: rest =>
    match field? name, strings? rest with
    | some which, some (ss, rest) => some (which, ss, rest)
    | _, _ => none
  | _ => none

def single : Builtin → List Text → List Text × List Text
  | .symbol, names => (names, [])
  | .function, names => ([], names)

def object? (marks : List Mark) : Option (List Text × List Text) :=
  match marks with
  | [.closeObject] => some ([], [])
  | _ =>
    match entry? marks with
    | some (which, names, [.closeObject]) => some (single which names)
    | some (first, names, .comma :: rest) =>
      match entry? rest with
      | some (second, others, [.closeObject]) =>
        match first, second with
        | .symbol, .function => some (names, others)
        | .function, .symbol => some (others, names)
        | _, _ => none
      | _ => none
    | _ => none

def array? (marks : List Mark) : Option (List Text × List Text) :=
  match marks with
  | [.closeArray] => some ([], [])
  | _ =>
    match strings? marks with
    | some (symbols, [.closeArray]) => some (symbols, [])
    | some (symbols, .comma :: rest) =>
      match strings? rest with
      | some (functions, [.closeArray]) => some (symbols, functions)
      | _ => none
    | _ => none

def read? (text : Text) : Option (List Text × List Text) :=
  match marks? text.length text with
  | some (.openObject :: marks) => object? marks
  | some (.openArray :: marks) => array? marks
  | _ => none

end File

end Registry

end LispSyntax
