import LispSyntax.Proofs.OneForm
import LispSyntax.Proofs.Writing.Special

/-! # Two styles of quotes

A text of one form, quoted in either style, is a text of one form again: a mark in front of it
(`exists_oneForm_shorthand`), or a head before it and the closing parenthesis on the next line
(`exists_oneForm_explicit`). Both have the form itself inside, up to places and trivia, and the node is of the same
kind.

The form is read in another place with a level less, which `OneForm.exists_copy` takes care of. What is left here is
what stands around it. The head is followed by a space, so it is never taken for the account of a lookup, and the line
feed ends a comment that would hide the parenthesis.
-/

namespace LispSyntax

open LispSyntax.Parser Grammar Writing

namespace Writing.Quotation

def op : Quotation → QuoteOp
  | quote => .quote
  | quasiquote => .quasiquote
  | unquote => .unquote

def shorthand (q : Quotation) (text : Text) : Text :=
  (Word.mark q.mark q.mark_mem).text ++ text

/-- A call of the operation by its name, with the closing parenthesis on the next line. -/
def explicit (q : Quotation) (text : Text) : Text :=
  Token.enclosed (headText q.head) text

theorem specialNode_head (q : Quotation) : specialNode q.head = q.node := by
  cases q <;> rfl

theorem isForm_node (q : Quotation) (ds : List Draft) : Outline.IsForm (.node q.node ds : Draft) := by
  refine ⟨_, _, rfl, ?_⟩
  cases q <;> rfl

end Writing.Quotation

variable {r : Registry} {text : Text} {init : List Token} {last t u c : Token} {d : Draft} {p q : Parser}
  {ts cs : List Token} {ds : List Draft} {form : FormRule}

/-! ## Marks -/

/-- A mark and the form behind it make a quote. -/
theorem markedForm_eq (q : Quotation) (kindEq : p.kind = q.mark) (going : p.begun.advance.atSequenceEnd = false) :
    (markedForm form p).2 = ((form p.begun.advance).2.complete p.start.1 q.node).2 := by
  rw [markedForm, kindEq, quoteNode_mark, node_eq]
  simp only [going, Bool.false_eq_true, if_false]

/-- A form behind a mark is that form, quoted. -/
theorem exists_oneForm_shorthand (one : OneForm r text init last d) (fits : LogFits text r)
    (levels : d.levels < maxDepth) (q : Quotation) :
    ∃ init' last' ds, OneForm r (q.shorthand text) init' last' (.node q.node ds) ∧
      ds.map Draft.sketch = [.leaf (q.mark, (Word.mark q.mark q.mark_mem).text), d.sketch] := by
  have scanned : Token.lexemeOf r (q.shorthand text) = ⟨.clean q.mark (Word.mark q.mark q.mark_mem).text, text⟩ := by
    cases q <;> rfl
  obtain ⟨n, t, init', tokens, isMark, spelling, copied⟩ := Token.exists_tokens_behind_mark q.mark_mem scanned
    (congrArg Prod.snd one.tokens) (congrArg Prod.fst one.tokens) one.going
  let p := (startOf r (t :: init') (last.shift n)).begun
  have ready : p.Ready := (ready_startOf (congrArg Prod.fst tokens)).begun
  have restEq : p.rest = t :: init' := rfl
  have kindEq : p.kind = q.mark := (kind_of_rest restEq).trans isMark
  have taken : Runs p.begun [Draft.token t.kind t] p.begun.advance := runs_advance (p := p.begun) restEq
  have left : p.begun.advance.rest = init' ++ [] := by
    rw [List.append_nil]
    exact rest_advanceAs (p := p.begun) restEq _
  obtain ⟨e, runs, ending, quiet, sketch, inside⟩ :=
    one.exists_copy fits levels copied (taken.ready ready.begun) left (by simp) rfl rfl
  have going : p.atSequenceEnd = false := by
    cases q <;> simp [atSequenceEnd, isAt, kindEq, Quotation.mark, Kind.isCloser]
  have formEq : (Grammar.form maxDepth p).2 = (markedForm (Grammar.form 127) p).2 := by
    rw [maxDepth, form_of_going _ going]
    cases q <;> simp only [formAt, kindEq, Quotation.mark, counted]
  rw [markedForm_eq q kindEq inside] at formEq
  refine ⟨t :: init', last.shift n, [Draft.token t.kind t, e],
    ⟨tokens, List.cons_ne_nil _ _, ?_, ?_, ?_, q.isForm_node _⟩, ?_⟩
  · rw [formEq]
    exact (makes_complete (by cases q <;> rfl) (taken.trans runs)).runs
  · rw [formEq, reports_complete, quiet]
  · rw [formEq, rest_complete, ending]
  · simp [sketch, isMark, spelling]

/-! ## Heads -/

/-- A special form that is closed where its body ends. -/
theorem runs_specialForm {head : Kind} (isHead : head ∈ Kind.heads) (rest : p.rest = t :: u :: ts)
    (isParen : t.kind = .leftParen)
    (body : Runs ((p.begun.openSequence (spellingOf head)).advanceAs head) ds
      (specialBody form head ((p.begun.openSequence (spellingOf head)).advanceAs head)))
    (left : (specialBody form head ((p.begun.openSequence (spellingOf head)).advanceAs head)).rest = c :: cs)
    (closes : c.kind = .rightParen) :
    Runs p [.node (specialNode head) (Draft.token .leftParen t :: Draft.token head u :: ds ++
      [Draft.token .rightParen c])] (specialForm form head p).2 ∧ (specialForm form head p).2.rest = cs ∧
      (specialForm form head p).2.reports =
        (specialBody form head ((p.begun.openSequence (spellingOf head)).advanceAs head)).reports := by
  let q := p.begun.openSequence (spellingOf head)
  have opens : t.kind.closer? = some .rightParen := by rw [isParen]; rfl
  have restQ : q.rest = u :: ts := Setting.rest_openSequence (p := p.begun) rest opens _
  have inside := (runs_advanceAs restQ head).trans body
  generalize bodyEq : specialBody form head ((p.begun.openSequence (spellingOf head)).advanceAs head) = b
    at body left inside
  have frames : b.frames = ⟨.rightParen, spellingOf head⟩ :: p.begun.frames := by
    rw [inside.frames, frames_openSequence (p := p.begun) rest opens]
  have atEnd : b.atSequenceEnd = true := by
    simp [atSequenceEnd, kind_of_rest left, closes, frames, Kind.isCloser]
  have closed : b.closeSequence = { b.advance with frames := p.begun.frames } := by
    simp [closeSequence, frames, isAt, kind_of_rest left, closes]
  have formEq : specialForm form head p =
      ({ b.advance with frames := p.begun.frames } : Parser).complete p.start.1 (specialNode head) := by
    rw [specialForm, node_eq, ← closed]
    simp only [bodyEq, noMoreForms, atEnd, if_true]
  have whole := (runs_inside (p := p.begun) rest opens inside).trans ((runs_advance left).withFrames p.begun.frames)
  rw [isParen, closes] at whole
  rw [formEq, reports_complete, rest_complete]
  refine ⟨?_, ?_, ?_⟩
  · exact (makes_complete (isLabel_specialNode isHead).1 whole).runs
  · exact rest_advanceAs left _
  · exact quiet_advanceAs left _

/-- The name of a special form, followed by trivia, is its head. -/
theorem headAhead?_eq_some {head : Kind} (isHead : head ∈ Kind.heads) (rest : p.rest = t :: u :: ts)
    (isSymbol : u.kind.isSymbolToken = true) (spelling : u.text = headText head) (apart : u.trailing ≠ []) :
    headAhead? p = some head := by
  have token : p.token 1 = u := by simp [Parser.token, rest]
  have notJoined : p.joined 1 = false := by
    simp [Parser.joined, token, Token.joined, apart]
  rw [headAhead?, nth, token, isSymbol, notJoined, Bool.and_false, Bool.not_false, spelling]
  exact ofHead?_headText isHead

/-- What stands after the name of a quoting operation is the form that is quoted. -/
theorem specialBody_quote (q : Quotation) (going : p.atSequenceEnd = false) :
    specialBody form q.head p = (form p).2 := by
  have body : specialBody form q.head p = (expectForm form .nothingToQuote p).2 := by
    cases q <;> rfl
  rw [body, expectForm, if_neg (by simp [going])]

/-- A form in parentheses after the name of an operation is that form, quoted. -/
theorem exists_oneForm_explicit (one : OneForm r text init last d) (fits : LogFits text r)
    (levels : d.levels < maxDepth) (q : Quotation) :
    ∃ init' last' ds, OneForm r (q.explicit text) init' last' (.node q.node ds) ∧
      ∃ opener name closer, ds.map Draft.sketch = [.leaf (.leftParen, opener), .leaf (q.head, name), d.sketch,
        .leaf (.rightParen, closer)] := by
  obtain ⟨n, t, u, init', c, last', tokens, isParen, ⟨nameKind, nameText⟩, apart, copied, closes, spread⟩ :=
    Token.exists_tokens_enclosed (headName q.head q.head_mem) (congrArg Prod.snd one.tokens)
      (congrArg Prod.fst one.tokens) one.going
  let p := (startOf r (t :: u :: (init' ++ [c])) last').begun
  have whole : Token.tokenize (q.explicit text) r = (t :: u :: (init' ++ [c]) ++ [last'], []) := by
    have spelled : Token.tokenize (q.explicit text) r = _ := tokens
    simpa using spelled
  have ready : p.Ready := (ready_startOf (congrArg Prod.fst whole)).begun
  have restEq : p.rest = t :: u :: (init' ++ [c]) := rfl
  have isSymbol : u.kind.isSymbolToken = true := by
    rw [nameKind]
    exact Scan.isSymbolToken_symbolKind r _
  have opens : t.kind.closer? = some .rightParen := by rw [isParen]; rfl
  -- The state behind the name.
  let s := p.begun.openSequence (spellingOf q.head)
  have restS : s.rest = u :: (init' ++ [c]) := Setting.rest_openSequence (p := p.begun) restEq opens _
  have taken := runs_advanceAs restS q.head
  have readyS : s.Ready := ready.begun.openSequence (p := p.begun) restEq opens _
  have silent : (s.advanceAs q.head).reports = [] := by
    rw [quiet_advanceAs restS q.head, reports_openSequence (p := p.begun) restEq opens]
    rfl
  have slash : (s.advanceAs q.head).slashKind = Scan.symbolKind r ['/'] := by
    rw [taken.slash]
    simp only [s, openSequence_eq (p := p.begun) restEq opens]
    exact (runs_advanceAs (p := p.begun) restEq _).slash
  obtain ⟨e, runs, ending, quiet, sketch, inside⟩ :=
    one.exists_copy fits levels copied (taken.ready readyS) (rest_advanceAs restS q.head)
      (by simpa using spread) silent slash
  rw [← specialBody_quote q inside] at runs ending quiet
  obtain ⟨made, left, reports⟩ := runs_specialForm q.head_mem restEq isParen runs ending closes
  have going : p.atSequenceEnd = false := by
    simp [atSequenceEnd, isAt, kind_of_rest restEq, isParen, Kind.isCloser]
  have formEq : (Grammar.form maxDepth p).2 = (specialForm (Grammar.form 127) q.head p).2 := by
    have met : p.isAt .leftParen = true := by simp [isAt, kind_of_rest restEq, isParen]
    rw [maxDepth, form_of_going _ going, ← parenthesized_eq_specialForm met
      (headAhead?_eq_some q.head_mem restEq isSymbol nameText apart)]
    simp only [formAt, kind_of_rest restEq, isParen, counted]
  rw [q.specialNode_head] at made
  refine ⟨_, last', _, ⟨whole, List.cons_ne_nil _ _, formEq ▸ made, ?_, ?_, q.isForm_node _⟩,
    t.text, u.text, c.text, ?_⟩
  · rw [formEq, reports, quiet]
  · rw [formEq, left]
  · simp [sketch]

/-! ## Results -/

/-- The result has no diagnostics and one form, which is a quote, of the operation, in the style and of the form. -/
def Parse.IsQuote (result : Parse) (op : QuoteOp) (style : QuoteStyle) (form : Sketch) : Prop :=
  result.isOk = true ∧ ∃ (q : Quoted) (f : Form), result.root.forms = [.quoted q] ∧ q.op = op ∧ q.style = style ∧
    q.form? = some f ∧ f.view.tree.sketch = form

def Writing.Quotation.styleOf (q : Quotation) (first : Kind) : QuoteStyle :=
  if first = q.mark then .shorthand else .explicit

/-- The one form of a result, of the shape that its kind has. -/
theorem Parse.forms_eq_of_sketches {result : Parse} {s : Shape} {kind : Kind} {os : List Sketch}
    (make : Typed s → Form) (makes : ∀ t, (make t).view = t.view) (sketches : result.root.sketches = [.node kind os])
    (isForm : Shape.form.accepts kind = true) (accepted : s.accepts kind = true) :
    ∃ t : Typed s, result.root.forms = [make t] ∧ t.view.tree.sketch = .node kind os := by
  obtain ⟨f, forms, sketch⟩ := View.exists_form_of_sketches sketches ⟨kind, os, rfl, isForm⟩
  obtain ⟨t, viewEq⟩ := Views.exists_typed_of_sketch (s := s) sketch accepted
  have same : some f = some (make t) := by
    rw [← f.cast?_view, ← (make t).cast?_view, makes, viewEq]
  exact ⟨t, by rw [forms, Option.some.inj same], viewEq ▸ sketch⟩

/-- The parts of a quote. -/
theorem isQuote_of_sketches {result : Parse} {q : Quotation} {first : Kind} {lexeme : Text} {os : List Sketch}
    {form : Sketch} (ok : result.isOk = true)
    (sketches : result.root.sketches = [.node q.node (.leaf (first, lexeme) :: os)])
    (inside : os.filter Outline.isNode = [form]) (isForm : form.IsForm)
    (isFirst : first = q.mark ∨ first = .leftParen) : result.IsQuote q.op (q.styleOf first) form := by
  obtain ⟨t, forms, sketch⟩ := Parse.forms_eq_of_sketches Form.quoted (fun _ => rfl) sketches (by cases q <;> rfl)
    (by cases q <;> rfl)
  obtain ⟨-, kindEq, -⟩ := Views.node_of_sketch sketch
  obtain ⟨f, quoted, formSketch⟩ := View.exists_form_of_sketches (v := t.view)
    ((View.sketches_of_node sketch).trans inside) isForm
  refine ⟨ok, t, f, forms, ?_, ?_, ?_, formSketch⟩
  · rw [Quoted.op, kindEq]
    cases q <;> rfl
  · have token : t.view.tokens.head?.map LeafView.kind = some first := by
      rw [← List.head?_map, View.kinds_tokens sketch]
      rfl
    rw [Quoted.style, token]
    cases q <;> rcases isFirst with rfl | rfl <;> rfl
  · rw [Quoted.form?, Typed.forms, quoted]
    rfl

/-- One form without diagnostics, quoted in both styles. -/
theorem exists_quotes {result : Parse} {f : Form} (parsed : parse text r = .ok result) (ok : result.isOk = true)
    (one : result.root.forms = [f]) (levels : f.view.tree.sketch.levels < maxDepth) (q : Quotation)
    (small : Text.size (q.explicit text) < sizeLimit) (fitsShort : LogFits (q.shorthand text) r)
    (fitsLong : LogFits (q.explicit text) r) :
    ∃ short long, parse (q.shorthand text) r = .ok short ∧ parse (q.explicit text) r = .ok long ∧
      short.IsQuote q.op .shorthand f.view.tree.sketch ∧ long.IsQuote q.op .explicit f.view.tree.sketch := by
  obtain ⟨init, last, d, oneForm, sketch⟩ := exists_oneForm parsed ok one
  rw [← sketch, Draft.sketch, Outline.levels_map] at levels
  have isForm := Draft.isForm_sketch oneForm.isForm
  have fits := logFits_of_parse parsed
  have smallShort : Text.size (q.shorthand text) < sizeLimit := by
    have mark : Text.size (Word.mark q.mark q.mark_mem).text = 1 := by cases q <;> decide
    have paren : Char.utf8Size '(' = 1 := by decide
    simp only [Quotation.explicit, Token.enclosed, Text.size_cons, Text.size_append, paren] at small
    rw [Quotation.shorthand, Text.size_append, mark]
    omega
  obtain ⟨init₁, last₁, ds₁, short, sketches₁⟩ := exists_oneForm_shorthand oneForm fits levels q
  obtain ⟨init₂, last₂, ds₂, long, opener, name, closer, sketches₂⟩ :=
    exists_oneForm_explicit oneForm fits levels q
  obtain ⟨result₁, parsed₁, ok₁, root₁⟩ := short.exists_parse smallShort fitsShort
  obtain ⟨result₂, parsed₂, ok₂, root₂⟩ := long.exists_parse small fitsLong
  rw [Draft.sketch_node, sketches₁] at root₁
  rw [Draft.sketch_node, sketches₂] at root₂
  have isNode : Outline.isNode d.sketch = true := by
    obtain ⟨kind, os, sketch, -⟩ := isForm
    rw [sketch]
    rfl
  have first := isQuote_of_sketches ok₁ root₁ (by simp [isNode]) isForm (.inl rfl)
  have second := isQuote_of_sketches ok₂ root₂ (by simp [isNode]) isForm (.inr rfl)
  rw [sketch] at first second
  refine ⟨result₁, result₂, parsed₁, parsed₂, ?_, ?_⟩
  · simpa [Quotation.styleOf] using first
  · have notMark : q.styleOf .leftParen = .explicit := by cases q <;> rfl
    exact notMark ▸ second

end LispSyntax
