import LispSyntax.Text.Basic

/-! # Kinds of tokens and nodes

One enumeration serves the whole tree: kinds up to `eof` label tokens, the others label nodes. The
scanner never gives a token one of the head kinds; the parser does, once the form around the token
is known. Three tables tie kinds to their written forms: `Kind.label` (for listings), `Kind.spelling`
(tokens with a fixed spelling) and `Kind.ofHead?` (heads of special forms).
-/

namespace LispSyntax

inductive Kind where
  -- Punctuation.
  | leftParen | rightParen | leftBracket | rightBracket | leftBrace | rightBrace | hashLeftBrace
  | quoteMark | backtick | tilde | caret | slash | colon
  -- Literals.
  | nilWord | trueWord | falseWord | char | string | address | bytes | int | float | keyword
  -- Symbols, by their class in the registry.
  | name | builtinSymbol | builtinFunction
  -- Heads and marks: a symbol or keyword read as part of a special form.
  | lookupHead | importHead | asMark | defHead | defnHead | defmacroHead | fnHead | macroHead
  | condHead | letHead | loopHead | ifLetHead | whenLetHead | dotimesHead | quoteHead
  | quasiquoteHead | unquoteHead | amp
  -- The unreadable and the end.
  | unknown | eof
  -- Nodes.
  | source | literal | symbol | listForm | vectorForm | setForm | mapForm | metadata | lookupForm
  | importForm | defForm | defnForm | defmacroForm | fnForm | macroForm | arity | paramList
  | fixedParam | optionalParam | condForm | condClause | condFallback | letForm | loopForm
  | ifLetForm | whenLetForm | dotimesForm | bindings | binding | quoteForm | quasiquoteForm
  | unquoteForm | error | tombstone
deriving DecidableEq, Repr

namespace Kind

def index (k : Kind) : Nat :=
  k.ctorIdx

def label : Kind → String
  | .leftParen => "LEFT_PAREN"
  | .rightParen => "RIGHT_PAREN"
  | .leftBracket => "LEFT_BRACKET"
  | .rightBracket => "RIGHT_BRACKET"
  | .leftBrace => "LEFT_BRACE"
  | .rightBrace => "RIGHT_BRACE"
  | .hashLeftBrace => "HASH_LEFT_BRACE"
  | .quoteMark => "QUOTE_MARK"
  | .backtick => "BACKTICK"
  | .tilde => "TILDE"
  | .caret => "CARET"
  | .slash => "SLASH"
  | .colon => "COLON"
  | .nilWord => "NIL_KW"
  | .trueWord => "TRUE_KW"
  | .falseWord => "FALSE_KW"
  | .char => "CHAR"
  | .string => "STRING"
  | .address => "ADDRESS"
  | .bytes => "BYTES"
  | .int => "INT_NUMBER"
  | .float => "FLOAT_NUMBER"
  | .keyword => "KEYWORD"
  | .name => "NAME"
  | .builtinSymbol => "BUILTIN_SYMBOL"
  | .builtinFunction => "BUILTIN_FUNCTION"
  | .lookupHead => "LOOKUP_KW"
  | .importHead => "IMPORT_KW"
  | .asMark => "AS_KW"
  | .defHead => "DEF_KW"
  | .defnHead => "DEFN_KW"
  | .defmacroHead => "DEFMACRO_KW"
  | .fnHead => "FN_KW"
  | .macroHead => "MACRO_KW"
  | .condHead => "COND_KW"
  | .letHead => "LET_KW"
  | .loopHead => "LOOP_KW"
  | .ifLetHead => "IF_LET_KW"
  | .whenLetHead => "WHEN_LET_KW"
  | .dotimesHead => "DOTIMES_KW"
  | .quoteHead => "QUOTE_KW"
  | .quasiquoteHead => "QUASIQUOTE_KW"
  | .unquoteHead => "UNQUOTE_KW"
  | .amp => "AMP"
  | .unknown => "UNKNOWN"
  | .eof => "EOF"
  | .source => "SOURCE"
  | .literal => "LITERAL"
  | .symbol => "SYMBOL"
  | .listForm => "LIST"
  | .vectorForm => "VECTOR"
  | .setForm => "SET"
  | .mapForm => "MAP"
  | .metadata => "METADATA"
  | .lookupForm => "LOOKUP"
  | .importForm => "IMPORT"
  | .defForm => "DEF"
  | .defnForm => "DEFN"
  | .defmacroForm => "DEFMACRO"
  | .fnForm => "FN"
  | .macroForm => "MACRO"
  | .arity => "ARITY"
  | .paramList => "PARAM_LIST"
  | .fixedParam => "FIXED_PARAM"
  | .optionalParam => "OPTIONAL_PARAM"
  | .condForm => "COND"
  | .condClause => "COND_CLAUSE"
  | .condFallback => "COND_FALLBACK"
  | .letForm => "LET"
  | .loopForm => "LOOP"
  | .ifLetForm => "IF_LET"
  | .whenLetForm => "WHEN_LET"
  | .dotimesForm => "DOTIMES"
  | .bindings => "BINDINGS"
  | .binding => "BINDING"
  | .quoteForm => "QUOTE"
  | .quasiquoteForm => "QUASIQUOTE"
  | .unquoteForm => "UNQUOTE"
  | .error => "ERROR"
  | .tombstone => "TOMBSTONE"

def all : List Kind :=
  [.leftParen, .rightParen, .leftBracket, .rightBracket, .leftBrace, .rightBrace, .hashLeftBrace,
    .quoteMark, .backtick, .tilde, .caret, .slash, .colon, .nilWord, .trueWord, .falseWord,
    .char, .string, .address, .bytes, .int, .float, .keyword, .name, .builtinSymbol,
    .builtinFunction, .lookupHead, .importHead, .asMark, .defHead, .defnHead, .defmacroHead,
    .fnHead, .macroHead, .condHead, .letHead, .loopHead, .ifLetHead, .whenLetHead, .dotimesHead,
    .quoteHead, .quasiquoteHead, .unquoteHead, .amp, .unknown, .eof, .source, .literal, .symbol,
    .listForm, .vectorForm, .setForm, .mapForm, .metadata, .lookupForm, .importForm, .defForm,
    .defnForm, .defmacroForm, .fnForm, .macroForm, .arity, .paramList, .fixedParam,
    .optionalParam, .condForm, .condClause, .condFallback, .letForm, .loopForm, .ifLetForm,
    .whenLetForm, .dotimesForm, .bindings, .binding, .quoteForm, .quasiquoteForm, .unquoteForm,
    .error, .tombstone]

theorem mem_all (k : Kind) : k ∈ all := by
  cases k <;> decide

def ofLabel? (label : String) : Option Kind :=
  all.find? (·.label == label)

def isSymbolToken : Kind → Bool
  | name | builtinSymbol | builtinFunction => true
  | _ => false

def isLiteralToken : Kind → Bool
  | nilWord | trueWord | falseWord | char | string | address | bytes | int | float | keyword => true
  | _ => false

/-- A head or a mark of a special form. -/
def isHead (k : Kind) : Bool :=
  decide (lookupHead.index ≤ k.index) && decide (k.index ≤ amp.index)

def isOpener : Kind → Bool
  | leftParen | leftBracket | leftBrace | hashLeftBrace => true
  | _ => false

def isCloser : Kind → Bool
  | rightParen | rightBracket | rightBrace => true
  | _ => false

def closer? : Kind → Option Kind
  | leftParen => some rightParen
  | leftBracket => some rightBracket
  | leftBrace | hashLeftBrace => some rightBrace
  | _ => none

theorem closer?_of_isCloser {k : Kind} (isCloser : k.isCloser = true) : k.closer? = none := by
  cases k <;> first | rfl | contradiction

theorem isCloser_of_closer? {k closer : Kind} (opens : k.closer? = some closer) : closer.isCloser = true := by
  unfold closer? at opens
  split at opens <;> cases opens <;> rfl

def isToken (k : Kind) : Bool :=
  decide (k.index ≤ eof.index)

def isNode (k : Kind) : Bool :=
  !k.isToken

/-- The text of a token that is always written the same way. -/
def spelling : Kind → Option String
  | leftParen => some "("
  | rightParen => some ")"
  | leftBracket => some "["
  | rightBracket => some "]"
  | leftBrace => some "\x7b"
  | rightBrace => some "\x7d"
  | hashLeftBrace => some "#\x7b"
  | quoteMark => some "'"
  | backtick => some "`"
  | tilde => some "~"
  | caret => some "^"
  | slash => some "/"
  | colon => some ":"
  | nilWord => some "nil"
  | trueWord => some "true"
  | falseWord => some "false"
  | lookupHead => some "lookup"
  | importHead => some "import"
  | asMark => some ":as"
  | defHead => some "def"
  | defnHead => some "defn"
  | defmacroHead => some "defmacro"
  | fnHead => some "fn"
  | macroHead => some "macro"
  | condHead => some "cond"
  | letHead => some "let"
  | loopHead => some "loop"
  | ifLetHead => some "if-let"
  | whenLetHead => some "when-let"
  | dotimesHead => some "dotimes"
  | quoteHead => some "quote"
  | quasiquoteHead => some "quasiquote"
  | unquoteHead => some "unquote"
  | amp => some "&"
  | _ => none

def heads : List Kind :=
  [lookupHead, importHead, defHead, defnHead, defmacroHead, fnHead, macroHead, condHead, letHead,
    loopHead, ifLetHead, whenLetHead, dotimesHead, quoteHead, quasiquoteHead, unquoteHead]

def ofHead? (text : Text) : Option Kind :=
  heads.find? fun k => k.spelling.map String.toList == some text

end Kind

end LispSyntax
