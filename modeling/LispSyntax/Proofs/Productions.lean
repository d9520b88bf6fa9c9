import LispSyntax.Ast.Shape
import LispSyntax.Proofs.Pattern

/-! # The grammar

For each kind of node, the children it has in a source that nothing is wrong with. The table
`production` is the grammar of the language, with a token wherever a delimiter, a head or a mark stands
and a node wherever a part has a name of its own; a kind that is no kind of node, or is one for errors,
has no production at all.
-/

namespace LispSyntax

namespace Productions

open Pattern Outline

def token (kind : Kind) : Pattern (Kind × Text) :=
  .single fun s => ∃ lexeme, s = .leaf (kind, lexeme)

def tokenIn (within : Kind → Bool) : Pattern (Kind × Text) :=
  .single fun s => ∃ kind lexeme, s = .leaf (kind, lexeme) ∧ within kind = true

/-- A node that may stand as a form of its own. -/
def IsForm (s : Sketch) : Prop :=
  ∃ kind children, s = .node kind children ∧ Shape.form.accepts kind = true ∧ kind ≠ .error

def form : Pattern (Kind × Text) :=
  single IsForm

def forms : Pattern (Kind × Text) :=
  many IsForm

def symbol : Pattern (Kind × Text) :=
  .node .symbol (tokenIn Kind.isSymbolToken)

def account : Pattern (Kind × Text) :=
  (Pattern.node .literal (token .address)).orElse symbol

def enclosed (opener closer : Kind) (inside : Pattern (Kind × Text)) : Pattern (Kind × Text) :=
  (token opener).followedBy (inside.followedBy (token closer))

def special (head : Kind) (body : Pattern (Kind × Text)) : Pattern (Kind × Text) :=
  enclosed .leftParen .rightParen ((token head).followedBy body)

/-- A mark and a form, or a head and a form in parentheses. -/
def quote (mark head : Kind) : Pattern (Kind × Text) :=
  ((token mark).followedBy form).orElse (special head form)

/-! ## Definitions and functions -/

def definition (body : Pattern (Kind × Text)) : Pattern (Kind × Text) :=
  symbol.followedBy ((Pattern.optional (single (HasKind .metadata))).followedBy body)

def arityParts : Pattern (Kind × Text) :=
  (single (HasKind .paramList)).followedBy form

def bareArity : Pattern (Kind × Text) :=
  .node .arity arityParts

def IsGroupedArity (s : Sketch) : Prop :=
  ∃ children, s = .node .arity children ∧ enclosed .leftParen .rightParen arityParts children

/-! ## Conditions and bindings -/

/-- A test and its result. -/
def IsPair (s : Sketch) : Prop :=
  ∃ children, s = .node .condClause children ∧ (form.followedBy form) children

/-- A clause that is only a test. -/
def IsTest (s : Sketch) : Prop :=
  ∃ children, s = .node .condClause children ∧ form children

/-- Nothing; or a test alone; or pairs and perhaps a fallback. -/
def clauses : Pattern (Kind × Text) :=
  Pattern.nothing.orElse ((single IsTest).orElse
    ((Pattern.some IsPair).followedBy (.optional (single (HasKind .condFallback)))))

def bindings (inside : Pattern (Kind × Text)) : Pattern (Kind × Text) :=
  .node .bindings (enclosed .leftBracket .rightBracket inside)

def oneBinding : Pattern (Kind × Text) :=
  bindings (single (HasKind .binding))

/-! ## The table -/

/-- The children of a node of the given kind. -/
def production : Kind → Pattern (Kind × Text)
  | .source => forms.followedBy (token .eof)
  | .literal => tokenIn Kind.isLiteralToken
  | .symbol => tokenIn Kind.isSymbolToken
  | .listForm => enclosed .leftParen .rightParen forms
  | .vectorForm => enclosed .leftBracket .rightBracket forms
  | .setForm => enclosed .hashLeftBrace .rightBrace forms
  | .mapForm => enclosed .leftBrace .rightBrace (Pattern.pairs IsForm)
  | .metadata => (token .caret).followedBy (single (HasKind .mapForm))
  | .lookupForm => (account.followedBy ((token .slash).followedBy symbol)).orElse
      (special .lookupHead (account.optional.followedBy symbol))
  | .importForm => special .importHead
      (symbol.followedBy (.optional ((token .asMark).followedBy symbol)))
  | .defForm => special .defHead (definition form)
  | .defnForm => special .defnHead (definition (bareArity.orElse (Pattern.some IsGroupedArity)))
  | .defmacroForm => special .defmacroHead (definition bareArity)
  | .fnForm => special .fnHead bareArity
  | .macroForm => special .macroHead bareArity
  | .arity => arityParts.orElse (enclosed .leftParen .rightParen arityParts)
  | .paramList => enclosed .leftBracket .rightBracket
      ((many (HasKind .fixedParam)).followedBy
        (.optional ((token .amp).followedBy (Pattern.some (HasKind .optionalParam)))))
  | .fixedParam | .optionalParam => tokenIn Kind.isSymbolToken
  | .condForm => special .condHead clauses
  | .condClause => form.followedBy form.optional
  | .condFallback => form
  | .letForm => special .letHead ((bindings (many (HasKind .binding))).followedBy forms)
  | .loopForm => special .loopHead ((bindings (many (HasKind .binding))).followedBy forms)
  | .ifLetForm => special .ifLetHead (oneBinding.followedBy (form.followedBy form.optional))
  | .whenLetForm => special .whenLetHead (oneBinding.followedBy forms)
  | .dotimesForm => special .dotimesHead (oneBinding.followedBy forms)
  | .bindings => enclosed .leftBracket .rightBracket (many (HasKind .binding))
  | .binding => symbol.followedBy form
  | .quoteForm => quote .quoteMark .quoteHead
  | .quasiquoteForm => quote .backtick .quasiquoteHead
  | .unquoteForm => quote .tilde .unquoteHead
  | _ => fun _ => False

end Productions

end LispSyntax
