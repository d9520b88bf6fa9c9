import LispSyntax.Tree.View

/-! # Shapes and typed views

A shape says which kinds of node a typed view is of: one kind for most, a few that mean the same for
quotes, and all that may stand on their own for forms. `Typed s` is a view of a node together with the
proof that the shape accepts its kind, so a typed view cannot be of anything else.
-/

namespace LispSyntax

inductive Shape where
  | source | literal | symbol | listForm | vectorForm | setForm | mapForm | metadata | lookupForm
  | importForm | defForm | defnForm | defmacroForm | fnForm | macroForm | arity | paramList
  | fixedParam | optionalParam | condForm | condClause | condFallback | letForm | loopForm
  | ifLetForm | whenLetForm | dotimesForm | bindings | binding | error | quoted | form
deriving DecidableEq, Repr

namespace Shape

def all : List Shape :=
  [source, literal, symbol, listForm, vectorForm, setForm, mapForm, metadata, lookupForm, importForm,
    defForm, defnForm, defmacroForm, fnForm, macroForm, arity, paramList, fixedParam, optionalParam,
    condForm, condClause, condFallback, letForm, loopForm, ifLetForm, whenLetForm, dotimesForm,
    bindings, binding, error, quoted, form]

def label : Shape → String
  | source => "Source"
  | literal => "Literal"
  | symbol => "Symbol"
  | listForm => "List"
  | vectorForm => "Vector"
  | setForm => "Set"
  | mapForm => "Map"
  | metadata => "Metadata"
  | lookupForm => "Lookup"
  | importForm => "Import"
  | defForm => "Def"
  | defnForm => "Defn"
  | defmacroForm => "Defmacro"
  | fnForm => "Fn"
  | macroForm => "Macro"
  | arity => "Arity"
  | paramList => "ParamList"
  | fixedParam => "FixedParam"
  | optionalParam => "OptionalParam"
  | condForm => "Cond"
  | condClause => "CondClause"
  | condFallback => "CondFallback"
  | letForm => "Let"
  | loopForm => "Loop"
  | ifLetForm => "IfLet"
  | whenLetForm => "WhenLet"
  | dotimesForm => "Dotimes"
  | bindings => "Bindings"
  | binding => "Binding"
  | error => "ErrorNode"
  | quoted => "Quoted"
  | form => "Form"

def kinds : Shape → List Kind
  | source => [.source]
  | literal => [.literal]
  | symbol => [.symbol]
  | listForm => [.listForm]
  | vectorForm => [.vectorForm]
  | setForm => [.setForm]
  | mapForm => [.mapForm]
  | metadata => [.metadata]
  | lookupForm => [.lookupForm]
  | importForm => [.importForm]
  | defForm => [.defForm]
  | defnForm => [.defnForm]
  | defmacroForm => [.defmacroForm]
  | fnForm => [.fnForm]
  | macroForm => [.macroForm]
  | arity => [.arity]
  | paramList => [.paramList]
  | fixedParam => [.fixedParam]
  | optionalParam => [.optionalParam]
  | condForm => [.condForm]
  | condClause => [.condClause]
  | condFallback => [.condFallback]
  | letForm => [.letForm]
  | loopForm => [.loopForm]
  | ifLetForm => [.ifLetForm]
  | whenLetForm => [.whenLetForm]
  | dotimesForm => [.dotimesForm]
  | bindings => [.bindings]
  | binding => [.binding]
  | error => [.error]
  | quoted => [.quoteForm, .quasiquoteForm, .unquoteForm]
  | form =>
    [.literal, .symbol, .listForm, .vectorForm, .setForm, .mapForm, .lookupForm, .importForm, .defForm,
      .defnForm, .defmacroForm, .fnForm, .macroForm, .condForm, .letForm, .loopForm, .ifLetForm,
      .whenLetForm, .dotimesForm, .quoteForm, .quasiquoteForm, .unquoteForm, .error]

def accepts (s : Shape) (k : Kind) : Bool :=
  s.kinds.contains k

end Shape

/-- A view of a node that the shape accepts. -/
structure Typed (s : Shape) where
  view : View
  isNode : view.isNode = true
  accepted : s.accepts view.kind = true

namespace Typed

def cast? (s : Shape) (v : View) : Option (Typed s) :=
  if h : v.isNode = true ∧ s.accepts v.kind = true then some ⟨v, h.1, h.2⟩ else none

def span {s : Shape} (t : Typed s) : Span :=
  t.view.trimmedSpan

end Typed

namespace View

def child? (s : Shape) (v : View) : Option (Typed s) :=
  v.nodes.findSome? (Typed.cast? s)

def childrenOf (s : Shape) (v : View) : List (Typed s) :=
  v.nodes.filterMap (Typed.cast? s)

def token? (kind : Kind) (v : View) : Option LeafView :=
  v.tokens.find? (·.kind == kind)

end View

end LispSyntax
