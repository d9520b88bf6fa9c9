import LispSyntax.Ast.Literal
import LispSyntax.Registry

/-! # Forms

The typed views of forms and of their parts. Accessors look for children of the right shape and never
fail on a malformed tree: what is not there is missing from the answer.
-/

namespace LispSyntax

/-! ## Typed views by name -/

abbrev Source := Typed .source
abbrev Symbol := Typed .symbol
abbrev MapForm := Typed .mapForm
abbrev Metadata := Typed .metadata
abbrev Lookup := Typed .lookupForm
abbrev Import := Typed .importForm
abbrev Def := Typed .defForm
abbrev Defn := Typed .defnForm
abbrev Arity := Typed .arity
abbrev ParamList := Typed .paramList
abbrev Cond := Typed .condForm
abbrev CondClause := Typed .condClause
abbrev CondFallback := Typed .condFallback
abbrev BindingVector := Typed .bindings
abbrev Binding := Typed .binding
abbrev Quoted := Typed .quoted

inductive Form where
  | literal (it : Literal)
  | symbol (it : Symbol)
  | list (it : Typed .listForm)
  | vector (it : Typed .vectorForm)
  | set (it : Typed .setForm)
  | map (it : MapForm)
  | lookup (it : Lookup)
  | importing (it : Import)
  | defining (it : Def)
  | defn (it : Defn)
  | defmacroForm (it : Typed .defmacroForm)
  | fn (it : Typed .fnForm)
  | macroForm (it : Typed .macroForm)
  | cond (it : Cond)
  | letForm (it : Typed .letForm)
  | loop (it : Typed .loopForm)
  | ifLet (it : Typed .ifLetForm)
  | whenLet (it : Typed .whenLetForm)
  | dotimes (it : Typed .dotimesForm)
  | quoted (it : Quoted)
  | error (it : Typed .error)

namespace Form

def cast? (v : View) : Option Form :=
  (Typed.cast? .literal v).map literal
  <|> (Typed.cast? .symbol v).map symbol
  <|> (Typed.cast? .listForm v).map list
  <|> (Typed.cast? .vectorForm v).map vector
  <|> (Typed.cast? .setForm v).map set
  <|> (Typed.cast? .mapForm v).map map
  <|> (Typed.cast? .lookupForm v).map lookup
  <|> (Typed.cast? .importForm v).map importing
  <|> (Typed.cast? .defForm v).map defining
  <|> (Typed.cast? .defnForm v).map defn
  <|> (Typed.cast? .defmacroForm v).map defmacroForm
  <|> (Typed.cast? .fnForm v).map fn
  <|> (Typed.cast? .macroForm v).map macroForm
  <|> (Typed.cast? .condForm v).map cond
  <|> (Typed.cast? .letForm v).map letForm
  <|> (Typed.cast? .loopForm v).map loop
  <|> (Typed.cast? .ifLetForm v).map ifLet
  <|> (Typed.cast? .whenLetForm v).map whenLet
  <|> (Typed.cast? .dotimesForm v).map dotimes
  <|> (Typed.cast? .quoted v).map quoted
  <|> (Typed.cast? .error v).map error

def view : Form → View
  | literal it | symbol it | list it | vector it | set it | map it | lookup it | importing it
  | defining it | defn it | defmacroForm it | fn it | macroForm it | cond it | letForm it | loop it
  | ifLet it | whenLet it | dotimes it | quoted it | error it => it.view

def label : Form → String
  | literal _ => "Literal"
  | symbol _ => "Symbol"
  | list _ => "List"
  | vector _ => "Vector"
  | set _ => "Set"
  | map _ => "Map"
  | lookup _ => "Lookup"
  | importing _ => "Import"
  | defining _ => "Def"
  | defn _ => "Defn"
  | defmacroForm _ => "Defmacro"
  | fn _ => "Fn"
  | macroForm _ => "Macro"
  | cond _ => "Cond"
  | letForm _ => "Let"
  | loop _ => "Loop"
  | ifLet _ => "IfLet"
  | whenLet _ => "WhenLet"
  | dotimes _ => "Dotimes"
  | quoted _ => "Quoted"
  | error _ => "Error"

end Form

def View.forms (v : View) : List Form :=
  v.nodes.filterMap Form.cast?

def Typed.forms {s : Shape} (t : Typed s) : List Form :=
  t.view.forms

/-! ## Parts of forms -/

def View.symbolToken? (v : View) : Option LeafView :=
  v.tokens.find? (·.kind.isSymbolToken)

/-- The text of the first leaf that names something; empty without one. -/
def View.symbolName (v : View) : Except Fault Text :=
  match v.symbolToken? with
  | some t => t.leaf.trimmed
  | none => .ok []

def Typed.name {s : Shape} (t : Typed s) : Except Fault Text :=
  t.view.symbolName

def Symbol.builtin? (s : Symbol) : Option Builtin :=
  match s.view.symbolToken?.map LeafView.kind with
  | some .builtinSymbol => some .symbol
  | some .builtinFunction => some .function
  | _ => none

/-- Neighbours taken two by two; a last one without partner is left out. -/
def pairs {α : Type} : List α → List (α × α)
  | a :: b :: rest => (a, b) :: pairs rest
  | _ => []

def MapForm.entries (m : MapForm) : List (Form × Form) :=
  pairs m.forms

def Metadata.map? (m : Metadata) : Option MapForm :=
  m.view.child? .mapForm

inductive Account where
  | address (it : Literal)
  | symbol (it : Symbol)

inductive LookupStyle where
  | infixed
  | call
deriving DecidableEq, Repr

def LookupStyle.label : LookupStyle → String
  | infixed => "Infix"
  | call => "Call"

namespace Lookup

def style (l : Lookup) : LookupStyle :=
  if (l.view.token? .lookupHead).isSome then .call else .infixed

def operands (l : Lookup) : List View :=
  l.view.nodes.filter fun v => v.kind == .literal || v.kind == .symbol

def account? (l : Lookup) : Option Account :=
  match l.operands with
  | first :: _ :: _ =>
    (Typed.cast? .literal first).map Account.address
    <|> (Typed.cast? .symbol first).map Account.symbol
  | _ => none

def symbol? (l : Lookup) : Option Symbol :=
  l.operands.getLast?.bind (Typed.cast? .symbol)

end Lookup

namespace Import

def isBeforeAlias (v : View) : Bool :=
  v.kind != .asMark

def library? (i : Import) : Option Symbol :=
  (i.view.children.takeWhile isBeforeAlias).findSome? (Typed.cast? .symbol)

def alias? (i : Import) : Option Symbol :=
  (i.view.children.dropWhile isBeforeAlias).findSome? (Typed.cast? .symbol)

end Import

/-- The first child that is a symbol: the name of a definition. -/
def Typed.symbol? {s : Shape} (t : Typed s) : Option Symbol :=
  t.view.child? .symbol

def Typed.metadata? {s : Shape} (t : Typed s) : Option Metadata :=
  t.view.child? .metadata

def Typed.arities {s : Shape} (t : Typed s) : List Arity :=
  t.view.childrenOf .arity

def Typed.arity? {s : Shape} (t : Typed s) : Option Arity :=
  t.view.child? .arity

/-- The value of a definition: the form after its name. -/
def Def.body? (d : Def) : Option Form :=
  d.forms[1]?

def Arity.isGrouped (a : Arity) : Bool :=
  match a.view.children.head?.bind View.leaf? with
  | some t => t.kind == .leftParen
  | none => false

def Arity.params? (a : Arity) : Option ParamList :=
  a.view.child? .paramList

def Arity.body? (a : Arity) : Option Form :=
  a.forms.head?

/-- Whether the arities of a function are written in parentheses. -/
def Defn.isMultiArity (d : Defn) : Bool :=
  match d.arities with
  | first :: _ => first.isGrouped
  | [] => false

namespace ParamList

def fixed (ps : ParamList) : List (Typed .fixedParam) :=
  ps.view.childrenOf .fixedParam

def ampToken? (ps : ParamList) : Option LeafView :=
  ps.view.token? .amp

def optional (ps : ParamList) : List (Typed .optionalParam) :=
  ps.view.childrenOf .optionalParam

end ParamList

def Cond.clauses (c : Cond) : List CondClause :=
  c.view.childrenOf .condClause

def Cond.fallback? (c : Cond) : Option CondFallback :=
  c.view.child? .condFallback

def CondClause.test? (c : CondClause) : Option Form :=
  c.forms.head?

/-- The result of a clause; a clause without one gives its test. -/
def CondClause.result? (c : CondClause) : Option Form :=
  c.forms[1]?

def CondFallback.form? (c : CondFallback) : Option Form :=
  c.forms.head?

def BindingVector.bindings (b : BindingVector) : List Binding :=
  b.view.childrenOf .binding

def Typed.bindings? {s : Shape} (t : Typed s) : Option BindingVector :=
  t.view.child? .bindings

def Typed.binding? {s : Shape} (t : Typed s) : Option Binding :=
  t.bindings?.bind fun b => b.bindings.head?

def Binding.boundName? (b : Binding) : Option Symbol :=
  match b.forms.head? with
  | some (.symbol s) => some s
  | _ => none

def Binding.value? (b : Binding) : Option Form :=
  b.forms[1]?

def trueBranch? (t : Typed .ifLetForm) : Option Form :=
  t.forms.head?

def falseBranch? (t : Typed .ifLetForm) : Option Form :=
  t.forms[1]?

inductive QuoteOp where
  | quote
  | quasiquote
  | unquote
deriving DecidableEq, Repr

def QuoteOp.label : QuoteOp → String
  | quote => "Quote"
  | quasiquote => "Quasiquote"
  | unquote => "Unquote"

inductive QuoteStyle where
  | shorthand
  | explicit
deriving DecidableEq, Repr

def QuoteStyle.label : QuoteStyle → String
  | shorthand => "Shorthand"
  | explicit => "Explicit"

namespace Quoted

def op (q : Quoted) : QuoteOp :=
  match q.view.kind with
  | .quasiquoteForm => .quasiquote
  | .unquoteForm => .unquote
  | _ => .quote

def style (q : Quoted) : QuoteStyle :=
  match q.view.tokens.head?.map LeafView.kind with
  | some .quoteMark | some .backtick | some .tilde => .shorthand
  | _ => .explicit

def form? (q : Quoted) : Option Form :=
  q.forms.head?

end Quoted

end LispSyntax
