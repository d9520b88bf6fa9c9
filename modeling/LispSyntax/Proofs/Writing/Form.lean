import LispSyntax.Grammar.Special
import LispSyntax.Proofs.Outline
import LispSyntax.Proofs.Writing.Word

/-! # Abstract forms

The forms of the language as data, with three readings: the items they are written as (`Form.items`), the
sketch of the tree that they stand for (`Form.sketch`), and how deeply they nest (`Form.depth`).

A list must not look like a special form. This is built into the type: a list is empty, starts with a
symbol that is no head, or starts with a form that is no symbol, which is why symbols stand apart from
the other forms. Likewise maps hold pairs, functions have at least one arity, and only definitions have
metadata.
-/

namespace LispSyntax

namespace Writing

/-! ## Heads and marks -/

def headText (head : Kind) : Text :=
  (head.spelling.getD "").toList

def headName (head : Kind) (isHead : head ∈ Kind.heads) : Name where
  text := headText head
  nonempty := by revert head; decide
  bounded := by revert head; decide
  symbolic := List.all_eq_true.mp (by revert head; decide)
  free := by revert head; decide

theorem ofHead?_headText {head : Kind} (isHead : head ∈ Kind.heads) :
    Kind.ofHead? (headText head) = some head := by
  revert head
  decide

def ampName : Name where
  text := ['&']
  nonempty := by decide
  bounded := by decide
  symbolic := List.all_eq_true.mp (by decide)
  free := by decide

def asKeyword : Literal :=
  .keyword ⟨"as".toList, by decide, by decide, List.all_eq_true.mp (by decide)⟩

inductive Quotation where
  | quote
  | quasiquote
  | unquote

namespace Quotation

def mark : Quotation → Kind
  | quote => .quoteMark
  | quasiquote => .backtick
  | unquote => .tilde

def head : Quotation → Kind
  | quote => .quoteHead
  | quasiquote => .quasiquoteHead
  | unquote => .unquoteHead

def node : Quotation → Kind
  | quote => .quoteForm
  | quasiquote => .quasiquoteForm
  | unquote => .unquoteForm

theorem mark_mem (q : Quotation) : q.mark ∈ markKinds := by
  cases q <;> decide

theorem head_mem (q : Quotation) : q.head ∈ Kind.heads := by
  cases q <;> decide

end Quotation

/-! ## Forms -/

/-- Parameters by position, and those that may be left out. -/
structure Parameters where
  fixed : List Parameter
  optional : List Parameter

mutual

inductive Form where
  | symbol (name : Name)
  | other (form : Other)

inductive Other where
  | literal (literal : Literal)
  | division
  | infixLookup (account : Account) (name : Name)
  | callLookup (account : Option Account) (name : Name)
  | marked (quotation : Quotation) (form : Form)
  | quoted (quotation : Quotation) (form : Form)
  -- Lists, by what they start with.
  | emptyList
  | call (head : OrdinaryName) (arguments : List Form)
  | group (first : Other) (rest : List Form)
  -- Other collections.
  | vector (items : List Form)
  | set (items : List Form)
  | map (entries : Pairs)
  -- Definitions: of a library's alias, a value, a function with one or several arities, an expander.
  | importing (library : Name) (rename : Option Name)
  | define (name : Name) (metadata : Option Pairs) (value : Form)
  | function (name : Name) (metadata : Option Pairs) (parameters : Parameters) (body : Form)
  | functions (name : Name) (metadata : Option Pairs) (arities : Arities)
  | expander (name : Name) (metadata : Option Pairs) (parameters : Parameters) (body : Form)
  | anonymous (expands : Bool) (parameters : Parameters) (body : Form)
  -- Control.
  | choose (clauses : Pairs) (last : Option Form)
  | scope (repeats : Bool) (bindings : Bindings) (body : List Form)
  | branch (name : Name) (value consequence : Form) (alternative : Option Form)
  | guarded (counts : Bool) (name : Name) (value : Form) (body : List Form)

inductive Pairs where
  | nil
  | cons (first second : Form) (rest : Pairs)

inductive Bindings where
  | nil
  | cons (name : Name) (value : Form) (rest : Bindings)

inductive Arities where
  | last (parameters : Parameters) (body : Form)
  | cons (parameters : Parameters) (body : Form) (rest : Arities)

end

/-! ## Items -/

def mark (kind : Kind) (isMark : kind ∈ markKinds) : Item :=
  .one (.mark kind isMark)

def name (n : Name) : Item :=
  .one (.name n)

def inParens (inside : List Item) : List Item :=
  mark .leftParen (by decide) :: (inside ++ [mark .rightParen (by decide)])

def inBrackets (inside : List Item) : List Item :=
  mark .leftBracket (by decide) :: (inside ++ [mark .rightBracket (by decide)])

def inBraces (inside : List Item) : List Item :=
  mark .leftBrace (by decide) :: (inside ++ [mark .rightBrace (by decide)])

def special (head : Kind) (isHead : head ∈ Kind.heads) (inside : List Item) : List Item :=
  inParens (name (headName head isHead) :: inside)

def Account.items (a : Account) : List Item :=
  [.one a.word]

/-- The optional parameters, behind their mark if there are any. -/
def optionalItems : List Parameter → List Item
  | [] => []
  | p :: ps => name ampName :: (p :: ps).map fun p => name p.name

def Parameters.items (ps : Parameters) : List Item :=
  inBrackets ((ps.fixed.map fun p => name p.name) ++ optionalItems ps.optional)

mutual

def Form.items : Form → List Item
  | .symbol n => [name n]
  | .other o => o.items

def Other.items : Other → List Item
  | .literal l => [.one (.literal l)]
  | .division => [.one .slash]
  | .infixLookup account n => [.lookup account n]
  | .callLookup account n =>
      special .lookupHead (by decide) ((account.map Account.items).getD [] ++ [name n])
  | .marked q form => mark q.mark q.mark_mem :: form.items
  | .quoted q form => special q.head q.head_mem form.items
  | .emptyList => inParens []
  | .call head arguments => inParens (name head.name :: Form.itemsAll arguments)
  | .group first rest => inParens (first.items ++ Form.itemsAll rest)
  | .vector items => inBrackets (Form.itemsAll items)
  | .set items =>
      mark .hashLeftBrace (by decide) :: (Form.itemsAll items ++ [mark .rightBrace (by decide)])
  | .map entries => inBraces entries.items
  | .importing library none => special .importHead (by decide) [name library]
  | .importing library (some rename) =>
      special .importHead (by decide) [name library, .one (.literal asKeyword), name rename]
  | .define n metadata value =>
      special .defHead (by decide) (name n :: (Pairs.metadataItems metadata ++ value.items))
  | .function n metadata parameters body =>
      special .defnHead (by decide)
        (name n :: (Pairs.metadataItems metadata ++ (parameters.items ++ body.items)))
  | .functions n metadata arities =>
      special .defnHead (by decide) (name n :: (Pairs.metadataItems metadata ++ arities.items))
  | .expander n metadata parameters body =>
      special .defmacroHead (by decide)
        (name n :: (Pairs.metadataItems metadata ++ (parameters.items ++ body.items)))
  | .anonymous false parameters body =>
      special .fnHead (by decide) (parameters.items ++ body.items)
  | .anonymous true parameters body =>
      special .macroHead (by decide) (parameters.items ++ body.items)
  | .choose clauses none => special .condHead (by decide) clauses.items
  | .choose clauses (some last) => special .condHead (by decide) (clauses.items ++ last.items)
  | .scope false bindings body =>
      special .letHead (by decide) (inBrackets bindings.items ++ Form.itemsAll body)
  | .scope true bindings body =>
      special .loopHead (by decide) (inBrackets bindings.items ++ Form.itemsAll body)
  | .branch n value consequence none =>
      special .ifLetHead (by decide) (inBrackets (name n :: value.items) ++ consequence.items)
  | .branch n value consequence (some alternative) =>
      special .ifLetHead (by decide)
        (inBrackets (name n :: value.items) ++ (consequence.items ++ alternative.items))
  | .guarded false n value body =>
      special .whenLetHead (by decide) (inBrackets (name n :: value.items) ++ Form.itemsAll body)
  | .guarded true n value body =>
      special .dotimesHead (by decide) (inBrackets (name n :: value.items) ++ Form.itemsAll body)

def Form.itemsAll : List Form → List Item
  | [] => []
  | f :: fs => f.items ++ Form.itemsAll fs

def Pairs.items : Pairs → List Item
  | .nil => []
  | .cons first second rest => first.items ++ (second.items ++ rest.items)

def Pairs.metadataItems : Option Pairs → List Item
  | none => []
  | some entries => mark .caret (by decide) :: inBraces entries.items

def Bindings.items : Bindings → List Item
  | .nil => []
  | .cons n value rest => name n :: (value.items ++ rest.items)

def Arities.items : Arities → List Item
  | .last parameters body => inParens (parameters.items ++ body.items)
  | .cons parameters body rest => inParens (parameters.items ++ body.items) ++ rest.items

end

def writeOut (fs : List Form) : Text :=
  write (Form.itemsAll fs)

/-! ## Sketches -/

def markLeaf (kind : Kind) : Sketch :=
  .leaf (kind, (kind.spelling.getD "").toList)

/-- The leaf of a name, under the kind that the registry gives it. -/
def nameLeaf (r : Registry) (n : Name) : Sketch :=
  .leaf (Scan.symbolKind r n.text, n.text)

def symbolSketch (r : Registry) (n : Name) : Sketch :=
  .node .symbol [nameLeaf r n]

def literalSketch (l : Literal) : Sketch :=
  .node .literal [.leaf (l.kind, l.text)]

def Account.sketch (r : Registry) : Account → Sketch
  | address digits => literalSketch (.address digits)
  | symbol n => symbolSketch r n

def between (opener closer : Kind) (inside : List Sketch) : List Sketch :=
  markLeaf opener :: (inside ++ [markLeaf closer])

/-- A special form; its head is taken under the kind of the head. -/
def specialSketch (node head : Kind) (inside : List Sketch) : Sketch :=
  .node node (between .leftParen .rightParen (.leaf (head, headText head) :: inside))

def optionalSketches (r : Registry) : List Parameter → List Sketch
  | [] => []
  | p :: ps => .leaf (.amp, ['&']) ::
      (p :: ps).map fun p => .node .optionalParam [nameLeaf r p.name]

def Parameters.sketch (r : Registry) (ps : Parameters) : Sketch :=
  .node .paramList (between .leftBracket .rightBracket
    ((ps.fixed.map fun p => .node .fixedParam [nameLeaf r p.name]) ++ optionalSketches r ps.optional))

def bindingSketch (r : Registry) (n : Name) (value : Sketch) : Sketch :=
  .node .binding [symbolSketch r n, value]

def bindingsSketch (bindings : List Sketch) : Sketch :=
  .node .bindings (between .leftBracket .rightBracket bindings)

mutual

/-- The tree that a form stands for, without trivia and places. -/
def Form.sketch (r : Registry) : Form → Sketch
  | .symbol n => symbolSketch r n
  | .other o => o.sketch r

def Other.sketch (r : Registry) : Other → Sketch
  | .literal l => literalSketch l
  | .division => .node .symbol [.leaf (Scan.symbolKind r ['/'], ['/'])]
  | .infixLookup account n =>
      .node .lookupForm [account.sketch r, markLeaf .slash, symbolSketch r n]
  | .callLookup account n => specialSketch .lookupForm .lookupHead
      ((account.map (Account.sketch r)).toList ++ [symbolSketch r n])
  | .marked q form => .node q.node [markLeaf q.mark, form.sketch r]
  | .quoted q form => specialSketch q.node q.head [form.sketch r]
  | .emptyList => .node .listForm (between .leftParen .rightParen [])
  | .call head arguments => .node .listForm
      (between .leftParen .rightParen (symbolSketch r head.name :: Form.sketchAll r arguments))
  | .group first rest => .node .listForm
      (between .leftParen .rightParen (first.sketch r :: Form.sketchAll r rest))
  | .vector items => .node .vectorForm (between .leftBracket .rightBracket (Form.sketchAll r items))
  | .set items => .node .setForm (between .hashLeftBrace .rightBrace (Form.sketchAll r items))
  | .map entries => .node .mapForm (between .leftBrace .rightBrace (entries.sketch r))
  | .importing library none => specialSketch .importForm .importHead [symbolSketch r library]
  | .importing library (some rename) => specialSketch .importForm .importHead
      [symbolSketch r library, .leaf (.asMark, ":as".toList), symbolSketch r rename]
  | .define n metadata value => specialSketch .defForm .defHead
      (symbolSketch r n :: (Pairs.metadataSketch r metadata ++ [value.sketch r]))
  | .function n metadata parameters body => specialSketch .defnForm .defnHead
      (symbolSketch r n :: (Pairs.metadataSketch r metadata ++
        [.node .arity [parameters.sketch r, body.sketch r]]))
  | .functions n metadata arities => specialSketch .defnForm .defnHead
      (symbolSketch r n :: (Pairs.metadataSketch r metadata ++ arities.sketch r))
  | .expander n metadata parameters body => specialSketch .defmacroForm .defmacroHead
      (symbolSketch r n :: (Pairs.metadataSketch r metadata ++
        [.node .arity [parameters.sketch r, body.sketch r]]))
  | .anonymous false parameters body => specialSketch .fnForm .fnHead
      [.node .arity [parameters.sketch r, body.sketch r]]
  | .anonymous true parameters body => specialSketch .macroForm .macroHead
      [.node .arity [parameters.sketch r, body.sketch r]]
  | .choose clauses none => specialSketch .condForm .condHead (clauses.clauseSketch r)
  -- A form alone is a clause that is only a test.
  | .choose .nil (some last) =>
      specialSketch .condForm .condHead [.node .condClause [last.sketch r]]
  | .choose (.cons test result rest) (some last) => specialSketch .condForm .condHead
      (.node .condClause [test.sketch r, result.sketch r] :: (rest.clauseSketch r ++
        [.node .condFallback [last.sketch r]]))
  | .scope false bindings body => specialSketch .letForm .letHead
      (bindingsSketch (bindings.sketch r) :: Form.sketchAll r body)
  | .scope true bindings body => specialSketch .loopForm .loopHead
      (bindingsSketch (bindings.sketch r) :: Form.sketchAll r body)
  | .branch n value consequence none => specialSketch .ifLetForm .ifLetHead
      [bindingsSketch [bindingSketch r n (value.sketch r)], consequence.sketch r]
  | .branch n value consequence (some alternative) => specialSketch .ifLetForm .ifLetHead
      [bindingsSketch [bindingSketch r n (value.sketch r)], consequence.sketch r,
        alternative.sketch r]
  | .guarded false n value body => specialSketch .whenLetForm .whenLetHead
      (bindingsSketch [bindingSketch r n (value.sketch r)] :: Form.sketchAll r body)
  | .guarded true n value body => specialSketch .dotimesForm .dotimesHead
      (bindingsSketch [bindingSketch r n (value.sketch r)] :: Form.sketchAll r body)

def Form.sketchAll (r : Registry) : List Form → List Sketch
  | [] => []
  | f :: fs => f.sketch r :: Form.sketchAll r fs

def Pairs.sketch (r : Registry) : Pairs → List Sketch
  | .nil => []
  | .cons first second rest => first.sketch r :: second.sketch r :: rest.sketch r

def Pairs.clauseSketch (r : Registry) : Pairs → List Sketch
  | .nil => []
  | .cons test result rest =>
      .node .condClause [test.sketch r, result.sketch r] :: rest.clauseSketch r

def Pairs.metadataSketch (r : Registry) : Option Pairs → List Sketch
  | none => []
  | some entries =>
      [.node .metadata [markLeaf .caret,
        .node .mapForm (between .leftBrace .rightBrace (entries.sketch r))]]

def Bindings.sketch (r : Registry) : Bindings → List Sketch
  | .nil => []
  | .cons n value rest => bindingSketch r n (value.sketch r) :: rest.sketch r

def Arities.sketch (r : Registry) : Arities → List Sketch
  | .last parameters body =>
      [.node .arity (between .leftParen .rightParen [parameters.sketch r, body.sketch r])]
  | .cons parameters body rest =>
      .node .arity (between .leftParen .rightParen [parameters.sketch r, body.sketch r]) ::
        rest.sketch r

end

/-! ## Depth -/

mutual

/-- How many levels deep forms nest in a form, itself included. What is no form of its own adds no level:
metadata, parameters, binding vectors, groups of an arity. -/
def Form.depth : Form → Nat
  | .symbol _ => 1
  | .other o => o.depth

def Other.depth : Other → Nat
  | .literal _ | .division | .infixLookup .. | .callLookup .. | .emptyList | .importing .. => 1
  | .marked _ form | .quoted _ form => form.depth + 1
  | .call _ arguments => max 1 (Form.depthAll arguments) + 1
  | .group first rest => max first.depth (Form.depthAll rest) + 1
  | .vector items | .set items => Form.depthAll items + 1
  | .map entries => entries.depth + 1
  | .define _ metadata value => max (Pairs.metadataDepth metadata) value.depth + 1
  | .function _ metadata _ body | .expander _ metadata _ body =>
      max (Pairs.metadataDepth metadata) body.depth + 1
  | .functions _ metadata arities => max (Pairs.metadataDepth metadata) arities.depth + 1
  | .anonymous _ _ body => body.depth + 1
  | .choose clauses none => clauses.depth + 1
  | .choose clauses (some last) => max clauses.depth last.depth + 1
  | .scope _ bindings body => max bindings.depth (Form.depthAll body) + 1
  | .branch _ value consequence none => max value.depth consequence.depth + 1
  | .branch _ value consequence (some alternative) =>
      max value.depth (max consequence.depth alternative.depth) + 1
  | .guarded _ _ value body => max value.depth (Form.depthAll body) + 1

def Form.depthAll : List Form → Nat
  | [] => 0
  | f :: fs => max f.depth (Form.depthAll fs)

def Pairs.depth : Pairs → Nat
  | .nil => 0
  | .cons first second rest => max first.depth (max second.depth rest.depth)

def Pairs.metadataDepth : Option Pairs → Nat
  | none => 0
  | some entries => entries.depth

def Bindings.depth : Bindings → Nat
  | .nil => 0
  | .cons _ value rest => max value.depth rest.depth

def Arities.depth : Arities → Nat
  | .last _ body => body.depth
  | .cons _ body rest => max body.depth rest.depth

end

end Writing

end LispSyntax
