import LispSyntax.Token.Scan

/-! # Words

The parts that sources are written from, as data: names, literals and marks. Each carries the proof that it
is well-formed, so a `Word` is a token that the scanner has no reason to complain about, said without the
scanner. An `Item` is a stretch of text without blanks: one word, or an account, a slash and a name that
touch each other. A source is written as its items with one space between any two.
-/

namespace LispSyntax

namespace Writing

/-! ## Names -/

/-- What a run of symbol characters may be without being the name of a symbol. -/
def reserved : List Text :=
  ["nil".toList, "true".toList, "false".toList, ['^']]

structure Name where
  text : Text
  nonempty : text ≠ []
  bounded : text.length ≤ nameLimit
  symbolic : ∀ c ∈ text, Text.isSymbolChar c = true
  free : text ∉ reserved

/-- The name of a parameter, which is not the mark before the optional ones. -/
structure Parameter where
  name : Name
  notAmp : name.text ≠ ['&']

/-- The name of a symbol that makes no special form of a list. -/
structure OrdinaryName where
  name : Name
  notHead : Kind.ofHead? name.text = none

/-- The name of a keyword, without its colon. -/
structure Keyword where
  text : Text
  nonempty : text ≠ []
  bounded : text.length ≤ nameLimit
  symbolic : ∀ c ∈ text, Text.isSymbolChar c = true

/-! ## Literals -/

structure Digits where
  text : Text
  nonempty : text ≠ []
  digital : ∀ c ∈ text, Text.isDigit c = true

/-- The digits of a byte string, two for each byte. -/
structure HexPairs where
  text : Text
  nonempty : text ≠ []
  paired : text.length % 2 = 0
  digital : ∀ c ∈ text, Text.isHexDigit c = true

structure CodeDigits where
  text : Text
  four : text.length = 4
  digital : ∀ c ∈ text, Text.isHexDigit c = true

inductive Sign where
  | plus
  | minus

def Sign.char : Sign → Char
  | plus => '+'
  | minus => '-'

structure Exponent where
  capital : Bool
  sign : Option Sign
  digits : Digits

def Exponent.text (e : Exponent) : Text :=
  (if e.capital then 'E' else 'e') :: (e.sign.map Sign.char).toList ++ e.digits.text

inductive StringItem where
  | plain (c : Char) (ordinary : c ≠ '"' ∧ c ≠ '\\')
  | escape (c : Char) (notCode : c ≠ 'u')
  | code (digits : CodeDigits)

def StringItem.text : StringItem → Text
  | plain c _ => [c]
  | escape c _ => ['\\', c]
  | code digits => '\\' :: 'u' :: digits.text

inductive Literal where
  | nil
  | bool (value : Bool)
  -- Characters.
  | char (c : Char) (inLine : c ≠ '\n' ∧ c ≠ '\r')
  | namedChar (word : Text) (isName : word ∈ Scan.namedCharacters)
  | codeChar (digits : CodeDigits)
  | string (items : List StringItem)
  -- Blobs.
  | address (digits : Digits)
  | bytes (digits : HexPairs)
  -- Numbers.
  | int (sign : Option Sign) (digits : Digits) (point : Bool)
  | decimal (sign : Option Sign) (whole : Text) (digital : ∀ c ∈ whole, Text.isDigit c = true)
      (fraction : Digits) (exponent : Option Exponent)
  | scientific (sign : Option Sign) (whole : Digits) (exponent : Exponent)
  | specialFloat (word : Text) (isSpecial : word ∈ Scan.specialFloats)
  | keyword (name : Keyword)

namespace Literal

def signText (sign : Option Sign) : Text :=
  (sign.map Sign.char).toList

def text : Literal → Text
  | nil => "nil".toList
  | bool true => "true".toList
  | bool false => "false".toList
  | char c _ => ['\\', c]
  | namedChar word _ => '\\' :: word
  | codeChar digits => '\\' :: 'u' :: digits.text
  | string items => '"' :: items.flatMap StringItem.text ++ ['"']
  | address digits => '#' :: digits.text
  | bytes digits => '0' :: 'x' :: digits.text
  | int sign digits point => signText sign ++ digits.text ++ if point then ['.'] else []
  | decimal sign whole _ fraction exponent =>
      signText sign ++ whole ++ '.' :: fraction.text ++ (exponent.map Exponent.text).getD []
  | scientific sign whole exponent => signText sign ++ whole.text ++ exponent.text
  | specialFloat word _ => '#' :: '#' :: word
  | keyword name => ':' :: name.text

def kind : Literal → Kind
  | nil => .nilWord
  | bool true => .trueWord
  | bool false => .falseWord
  | char .. | namedChar .. | codeChar _ => .char
  | string _ => .string
  | address _ => .address
  | bytes _ => .bytes
  | int .. => .int
  | decimal .. | scientific .. | specialFloat .. => .float
  | keyword _ => .keyword

theorem isLiteralToken_kind (l : Literal) : l.kind.isLiteralToken = true := by
  cases l with
  | bool value => cases value <;> rfl
  | _ => rfl

end Literal

/-! ## Words and items -/

def markKinds : List Kind :=
  [.caret, .leftParen, .rightParen, .leftBracket, .rightBracket, .leftBrace, .rightBrace,
    .hashLeftBrace, .quoteMark, .backtick, .tilde, .slash]

inductive Word where
  | mark (kind : Kind) (isMark : kind ∈ markKinds)
  | name (name : Name)
  | literal (literal : Literal)

namespace Word

def text : Word → Text
  | mark kind _ => (kind.spelling.getD "").toList
  | name n => n.text
  | literal l => l.text

/-- The kind of token that a word is; names have the kind that the registry gives them. -/
def kind (r : Registry) : Word → Kind
  | mark kind _ => kind
  | name n => Scan.symbolKind r n.text
  | literal l => l.kind

end Word

inductive Account where
  | address (digits : Digits)
  | symbol (name : Name)

def Account.word : Account → Word
  | address digits => .literal (.address digits)
  | symbol name => .name name

/-- A stretch of text without blanks between its words. -/
inductive Item where
  | one (word : Word)
  | lookup (account : Account) (name : Name)

def Word.slash : Word :=
  .mark .slash (by decide)

namespace Item

def words : Item → List Word
  | one word => [word]
  | lookup account name => [account.word, .slash, .name name]

def text (i : Item) : Text :=
  i.words.flatMap Word.text

end Item

/-- The items with one space between any two. -/
def write : List Item → Text
  | [] => []
  | [i] => i.text
  | i :: j :: rest => i.text ++ ' ' :: write (j :: rest)

end Writing

end LispSyntax
