import LispSyntax.Grammar.Collection
import LispSyntax.Proofs.Writing.Run

/-! # Reading sequences and collections back

`ReadsBack r form depth` is what the productions ask of the rule for a form: every form that nests at most
`depth` levels deep, written in front of anything, is read as its sketch. Loops over written forms then
read the sketches of the forms one after another and stop at the closing token.
-/

namespace LispSyntax

open LispSyntax.Parser Grammar

namespace Writing

variable {r : Registry} {p q : Parser} {k : List Item} {w : Word} {form : FormRule} {depth : Nat}

/-! ## Closing tokens -/

def rightParen : Closer :=
  ⟨.rightParen, rfl⟩

def rightBracket : Closer :=
  ⟨.rightBracket, rfl⟩

def rightBrace : Closer :=
  ⟨.rightBrace, rfl⟩

theorem inParens_append (inside k : List Item) :
    inParens inside ++ k = mark .leftParen (by decide) :: (inside ++ rightParen.item :: k) := by
  simp [inParens, rightParen, Closer.item]

theorem inBrackets_append (inside k : List Item) :
    inBrackets inside ++ k = mark .leftBracket (by decide) :: (inside ++ rightBracket.item :: k) := by
  simp [inBrackets, rightBracket, Closer.item]

theorem inBraces_append (inside k : List Item) :
    inBraces inside ++ k = mark .leftBrace (by decide) :: (inside ++ rightBrace.item :: k) := by
  simp [inBraces, rightBrace, Closer.item]

/-! ## How forms start -/

theorem starts_symbolKind (text : Text) : Starts (Scan.symbolKind r text) := by
  have starts : ∀ kind ∈ Kind.all, kind.isSymbolToken = true → Starts kind := by decide
  exact starts _ (Kind.mem_all _) (Scan.isSymbolToken_symbolKind r text)

theorem Account.starts (account : Account) : Starts (account.word.kind r) := by
  cases account with
  | address digits => exact (by decide : Starts .address)
  | symbol n => exact starts_symbolKind n.text

/-- The word begins a form that is no symbol. -/
def Begins (kind : Kind) : Prop :=
  Starts kind ∧ kind.isSymbolToken = false

instance (kind : Kind) : Decidable (Begins kind) :=
  inferInstanceAs (Decidable (_ ∧ _))

theorem begins_of_isLiteralToken {kind : Kind} (isLiteral : kind.isLiteralToken = true) :
    Begins kind := by
  have begins : ∀ kind ∈ Kind.all, kind.isLiteralToken = true → Begins kind := by decide
  exact begins kind (Kind.mem_all kind) isLiteral

/-- A form that is no symbol is an infix lookup or starts with a word that is no symbol. -/
theorem Other.items_cases (o : Other) : (∃ account n, o.items = [.lookup account n]) ∨
    ∃ w is, o.items = .one w :: is ∧ ∀ r, Begins (w.kind r) := by
  have parenthesized : ∀ inside, ∃ w is, inParens inside = .one w :: is ∧ ∀ r, Begins (w.kind r) :=
    fun inside => ⟨_, _, rfl, fun _ => (by decide : Begins .leftParen)⟩
  cases o with
  | literal l => exact .inr ⟨_, _, rfl, fun _ => begins_of_isLiteralToken l.isLiteralToken_kind⟩
  | infixLookup account n => exact .inl ⟨account, n, rfl⟩
  | marked quotation f =>
    refine .inr ⟨_, _, rfl, fun _ => ?_⟩
    change Begins quotation.mark
    cases quotation <;> decide
  | division => exact .inr ⟨_, _, rfl, fun _ => (by decide : Begins .slash)⟩
  | vector items => exact .inr ⟨_, _, rfl, fun _ => (by decide : Begins .leftBracket)⟩
  | set items => exact .inr ⟨_, _, rfl, fun _ => (by decide : Begins .hashLeftBrace)⟩
  | map entries => exact .inr ⟨_, _, rfl, fun _ => (by decide : Begins .leftBrace)⟩
  | emptyList | call head arguments | group first rest | callLookup account n | quoted quotation f =>
    exact .inr (parenthesized _)
  | define n metadata value | function n metadata parameters body | functions n metadata arities
  | expander n metadata parameters body =>
    exact .inr (parenthesized _)
  | importing library rename => cases rename <;> exact .inr (parenthesized _)
  | anonymous expands parameters body => cases expands <;> exact .inr (parenthesized _)
  | choose clauses last => cases last <;> exact .inr (parenthesized _)
  | scope repeats bindings body => cases repeats <;> exact .inr (parenthesized _)
  | branch n value consequence alternative => cases alternative <;> exact .inr (parenthesized _)
  | guarded counts n value body => cases counts <;> exact .inr (parenthesized _)

theorem Form.starts (f : Form) (k : List Item) : Starts (firstKind r (f.items ++ k)) := by
  cases f with
  | symbol n => exact starts_symbolKind n.text
  | other o =>
    rw [Form.items]
    obtain ⟨account, n, items⟩ | ⟨w, is, items, begins⟩ := o.items_cases
    · rw [items]
      exact account.starts
    · rw [items]
      exact (begins r).1

/-- The rule reads forms that do not nest too deeply as what they stand for, and counts them. -/
structure ReadsBack (r : Registry) (form : FormRule) (depth : Nat) : Prop where
  atEnd : ∀ p, p.atSequenceEnd = true → form p = (none, p)
  reads : ∀ (f : Form), f.depth ≤ depth → ∀ (p : Parser) (k : List Item), Ahead r (f.items ++ k) p →
    ∃ c q, form p = (some c, q) ∧ Yields r p [f.sketch r] k q

/-! ## Single tokens -/

theorem yields_literal {l : Literal} (ahead : Ahead r (.one (.literal l) :: k) p) :
    Yields r p [literalSketch l] k (literal p).2 := by
  have isLiteral : p.kind.isLiteralToken = true := by
    rw [ahead.kind_eq]
    exact l.isLiteralToken_kind
  rw [literal, require_eq isLiteral]
  exact .node rfl ahead.begun.advance

theorem Ahead.atSymbol {n : Name} (ahead : Ahead r (name n :: k) p) : p.atSymbol = true := by
  rw [ahead.atSymbol_eq]
  exact Scan.isSymbolToken_symbolKind r n.text

theorem symbol_eq (isSymbol : p.atSymbol = true) : symbol p = p.node .symbol Parser.advance := by
  unfold atSymbol at isSymbol
  rw [symbol, require_eq isSymbol]

theorem yields_symbol {n : Name} (ahead : Ahead r (name n :: k) p) :
    Yields r p [symbolSketch r n] k (symbol p).2 := by
  rw [symbol_eq ahead.atSymbol]
  exact .node rfl ahead.begun.advance

/-! ## Lookups -/

/-- A node around the next token, and the state after it. -/
theorem tokenNode {kind : Kind} (label : kind.isLabel = true)
    {t : Token} {ts : List Token} (rest : p.rest = t :: ts) :
    Makes p (.node kind [Draft.token t.kind t]) (p.node kind Parser.advance) ∧
      Quiet p (p.node kind Parser.advance).2 ∧ (p.node kind Parser.advance).2.rest = ts ∧
      (p.node kind Parser.advance).2.previous = some t := by
  have made : Makes p (.node kind [Draft.token t.kind t]) (p.node kind Parser.advance) :=
    makes_node label (runs_advance (p := p.begun) rest)
  have taken := made.runs.rest
  rw [rest, Draft.tokensAll_cons] at taken
  refine ⟨made, ?_, (List.cons.inj taken).2.symm, made.runs.previous⟩
  rw [Quiet, Parser.node, reports_complete]
  exact quiet_advanceAs (p := p.begun) rest p.begun.kind

/-- A word that is followed by a space is no account. -/
theorem infixLookup_eq {kind : Kind} (label : kind.isLabel = true)
    (ahead : Ahead r (.one w :: k) p) :
    infixLookup (p.node kind Parser.advance) = p.node kind Parser.advance := by
  obtain ⟨t, ts, rest, spells, apart, after⟩ := ahead.spelled.exists_one
  obtain ⟨made, -, restEq, previous⟩ := tokenNode label rest
  generalize p.node kind Parser.advance = first at made restEq previous
  have untouched : (first.2.isAt .slash && first.2.joinedToPrevious) = false := by
    cases k with
    | nil =>
      -- Nothing comes after the word, in particular no slash.
      cases after
      have atEnd := (made.runs.ready ahead.ready).kind_eq_eof restEq
      simp [isAt, atEnd]
    | cons i k =>
      have spaced : t.trailing.isEmpty = false := by simpa using apart (by simp)
      simp [joinedToPrevious, previous, Token.joined, spaced]
  simp [infixLookup, untouched]

/-- A node that a slash and a name touch is the account of a lookup. -/
theorem infixLookup_eq_wrap {first : Completed × Parser} {t slash u : Token} {us : List Token}
    {n : Name} (restEq : first.2.rest = slash :: u :: us) (previous : first.2.previous = some t)
    (touches : t.trailing = []) (spellsSlash : Spells r slash .slash)
    (slashTouches : slash.trailing = []) (spellsName : Spells r u (.name n)) :
    infixLookup first = first.2.wrap first.1 .lookupForm fun p => (symbol p.advance).2 := by
  have slashKind : slash.kind = .slash := spellsSlash.kind
  have isName : u.kind.isSymbolToken = true := by
    rw [spellsName.kind]
    exact Scan.isSymbolToken_symbolKind r n.text
  have isLookup : (first.2.isAt .slash && first.2.joinedToPrevious && first.2.joined 0 &&
      (first.2.nth 1).isSymbolToken) = true := by
    simp [isAt, joinedToPrevious, joined, nth, kind_of_rest restEq, current_of_rest restEq, token,
      restEq, previous, Token.joined, slashKind, isName, touches, spellsSlash.leading, slashTouches,
      spellsName.leading]
  simp only [infixLookup, isLookup, if_true]

theorem yields_infixLookup (kind : Kind) (label : kind.isLabel = true) {account : Account} {n : Name}
    (ahead : Ahead r (.lookup account n :: k) p) :
    Yields r p [.node .lookupForm [.node kind [.leaf (account.word.kind r, account.word.text)],
      markLeaf .slash, symbolSketch r n]] k (infixLookup (p.node kind Parser.advance)).2 := by
  obtain ⟨t, slash, u, us, rest, spells, touches, spellsSlash, slashTouches, spellsName, apart, after⟩ :=
    ahead.spelled.exists_lookup
  obtain ⟨made, quiet, restEq, previous⟩ := tokenNode label rest
  generalize p.node kind Parser.advance = first at made quiet restEq previous
  have wrapped := infixLookup_eq_wrap restEq previous touches spellsSlash slashTouches spellsName
  -- The slash touches the name, so the two are no written items; the name alone is one.
  have restEq' : (preceded first).rest = slash :: u :: us := (rest_preceded first).trans restEq
  have slashRuns := runs_advance restEq'
  have slashQuiet : Quiet first.2 (preceded first).advance := by
    rw [Quiet, Parser.advance, quiet_advanceAs restEq', reports_preceded]
  have aheadName : Ahead r (name n :: k) (preceded first).advance := by
    refine ⟨?_, ?_, ?_⟩
    · rw [Parser.advance, rest_advanceAs restEq']
      exact .one spellsName apart after
    · rw [slashRuns.last, last_preceded]
      exact made.runs.last ▸ ahead.last_eof
    · rw [slashRuns.slash, slashKind_preceded]
      exact made.runs.slash ▸ ahead.slash
  obtain ⟨aheadRest, ds, nameRuns, nameQuiet, sketches⟩ := yields_symbol aheadName
  have whole : Makes p (.node .lookupForm _)
      (first.2.wrap first.1 .lookupForm fun p => (symbol p.advance).2) :=
    makes_wrap rfl made (slashRuns.trans nameRuns)
  have quietAll : Quiet p (infixLookup first).2 := by
    rw [wrapped, Quiet, wrap, reports_complete]
    exact (nameQuiet.trans slashQuiet).trans quiet
  have restAll : (infixLookup first).2.rest = (symbol (preceded first).advance).2.rest := by
    rw [wrapped, wrap, rest_complete]
    rfl
  rw [← wrapped] at whole
  have slashLeaf : Outline.leaf (slash.kind, slash.text) = markLeaf .slash := by
    rw [spellsSlash.kind, spellsSlash.text]
    rfl
  have yields := ahead.yields (k := k) whole.runs quietAll (by rw [restAll]; exact aheadRest.spelled)
  simpa [sketches, spells.kind, spells.text, slashLeaf] using yields

/-! ## Sequences -/

theorem Form.length_items_pos (f : Form) : 0 < f.items.length := by
  have starts := f.starts (r := .empty) []
  cases items : f.items with
  | nil =>
    rw [items] at starts
    exact absurd rfl starts.1
  | cons i is => simp

theorem Form.length_le_itemsAll (fs : List Form) : fs.length ≤ (Form.itemsAll fs).length := by
  induction fs with
  | nil => simp
  | cons f fs ih =>
    have := f.length_items_pos
    simp only [Form.itemsAll, List.length_cons, List.length_append]
    omega

/-- There are at least as many tokens to come as there are forms, so no loop runs out of turns. -/
theorem Ahead.length_le {fs : List Form} (ahead : Ahead r (Form.itemsAll fs ++ k) p) :
    fs.length ≤ p.rest.length := by
  have tokens := ahead.spelled.length_le
  have forms := Form.length_le_itemsAll fs
  simp only [List.length_append] at tokens
  omega

theorem yields_sequenceLoop (readsBack : ReadsBack r form depth) {closer : Closer} (fs : List Form)
    (shallow : Form.depthAll fs ≤ depth) (turns : Nat) (enough : fs.length ≤ turns)
    (inside : Inside closer.kind p) (ahead : Ahead r (Form.itemsAll fs ++ closer.item :: k) p) :
    Yields r p (Form.sketchAll r fs) (closer.item :: k) (sequenceLoop form turns p) := by
  -- Each form takes one turn, and after the last one the closing token ends the loop.
  induction fs generalizing p turns with
  | nil =>
    cases turns with
    | zero => exact ahead.stays
    | succ turns =>
      rw [sequenceLoop, ahead.ended inside]
      exact ahead.stays
  | cons f fs ih =>
    cases turns with
    | zero => contradiction
    | succ turns =>
      simp only [Form.depthAll, Nat.max_le] at shallow
      rw [Form.itemsAll, List.append_assoc] at ahead
      obtain ⟨c, q, read, yields⟩ := readsBack.reads f shallow.1 p _ ahead
      have rest := ih shallow.2 turns (by simpa using enough) (yields.inside inside) yields.ahead
      simp only [sequenceLoop, ahead.going (f.starts _), read]
      exact yields.trans rest

theorem yields_sequence (readsBack : ReadsBack r form depth) {closer : Closer} {fs : List Form}
    (shallow : Form.depthAll fs ≤ depth) (inside : Inside closer.kind p)
    (ahead : Ahead r (Form.itemsAll fs ++ closer.item :: k) p) :
    Yields r p (Form.sketchAll r fs) (closer.item :: k) (sequence form p) :=
  yields_sequenceLoop readsBack fs shallow _ ahead.length_le inside ahead

theorem expectForm_eq {f : Form} (ahead : Ahead r (f.items ++ k) p) (missing : StructuralProblem) :
    expectForm form missing p = form p := by
  simp [expectForm, ahead.going (f.starts k)]

theorem yields_delimited (readsBack : ReadsBack r form depth) {opener kind : Kind} {closer : Closer}
    {isMark : opener ∈ markKinds} {name : String} {fs : List Form}
    (opens : opener.closer? = some closer.kind) (label : kind.isLabel = true) (shallow : Form.depthAll fs ≤ depth)
    (ahead : Ahead r (mark opener isMark :: (Form.itemsAll fs ++ closer.item :: k)) p) :
    Yields r p [.node kind (between opener closer.kind (Form.sketchAll r fs))] k
      (delimited name kind form p).2 := by
  obtain ⟨opened, inside⟩ := ahead.begun.openSequence closer opens name
  refine .node label ?_
  exact ahead.begun.enclosed opens (yields_sequence readsBack shallow inside opened)

/-! ## Maps and metadata -/

def Pairs.forms : Pairs → List Form
  | .nil => []
  | .cons first second rest => first :: second :: rest.forms

theorem Pairs.itemsAll_forms : (entries : Pairs) → Form.itemsAll entries.forms = entries.items
  | .nil => by simp [Pairs.forms, Form.itemsAll, Pairs.items]
  | .cons first second rest => by
    simp [Pairs.forms, Form.itemsAll, Pairs.items, rest.itemsAll_forms]

theorem Pairs.sketchAll_forms : (entries : Pairs) → Form.sketchAll r entries.forms = entries.sketch r
  | .nil => by simp [Pairs.forms, Form.sketchAll, Pairs.sketch]
  | .cons first second rest => by
    simp [Pairs.forms, Form.sketchAll, Pairs.sketch, rest.sketchAll_forms]

theorem Pairs.depthAll_forms : (entries : Pairs) → Form.depthAll entries.forms = entries.depth
  | .nil => by simp [Pairs.forms, Form.depthAll, Pairs.depth]
  | .cons first second rest => by
    simp [Pairs.forms, Form.depthAll, Pairs.depth, rest.depthAll_forms]

theorem Pairs.length_forms : (entries : Pairs) → entries.forms.length % 2 = 0
  | .nil => rfl
  | .cons first second rest => by
    have := rest.length_forms
    simp only [Pairs.forms, List.length_cons]
    omega

theorem yields_entriesLoop (readsBack : ReadsBack r form depth) {closer : Closer} (fs : List Form)
    (shallow : Form.depthAll fs ≤ depth) (turns : Nat) (enough : fs.length ≤ turns) (seen : Entries)
    (inside : Inside closer.kind p) (ahead : Ahead r (Form.itemsAll fs ++ closer.item :: k) p) :
    (entriesLoop form turns seen p).1.count = seen.count + fs.length ∧
      Yields r p (Form.sketchAll r fs) (closer.item :: k) (entriesLoop form turns seen p).2 := by
  induction fs generalizing p turns seen with
  | nil =>
    cases turns with
    | zero => exact ⟨rfl, ahead.stays⟩
    | succ turns =>
      rw [entriesLoop, ahead.ended inside]
      exact ⟨rfl, ahead.stays⟩
  | cons f fs ih =>
    cases turns with
    | zero => contradiction
    | succ turns =>
      simp only [Form.depthAll, Nat.max_le] at shallow
      rw [Form.itemsAll, List.append_assoc] at ahead
      obtain ⟨c, q, read, yields⟩ := readsBack.reads f shallow.1 p _ ahead
      obtain ⟨count, rest⟩ := ih shallow.2 turns (by simpa using enough)
        ⟨seen.count + 1, some (q.spanOf c)⟩ (yields.inside inside) yields.ahead
      simp only [entriesLoop, ahead.going (f.starts _), read]
      refine ⟨?_, yields.trans rest⟩
      simp only [Bool.false_eq_true, if_false, count, List.length_cons]
      omega

theorem yields_map (readsBack : ReadsBack r form depth) {entries : Pairs}
    (shallow : entries.depth ≤ depth) (ahead : Ahead r (inBraces entries.items ++ k) p) :
    Yields r p [.node .mapForm (between .leftBrace .rightBrace (entries.sketch r))] k
      (map form p).2 := by
  rw [inBraces_append, ← entries.itemsAll_forms] at ahead
  obtain ⟨opened, inside⟩ := ahead.begun.openSequence rightBrace rfl "map"
  obtain ⟨count, filled⟩ := yields_entriesLoop readsBack entries.forms
    (by rw [entries.depthAll_forms]; exact shallow) _ opened.length_le ⟨0, none⟩ inside opened
  -- An even number of forms was counted, so the check that follows the loop does nothing.
  have paired : ∀ q, checkPaired
      (entriesLoop form (p.begun.openSequence "map").rest.length ⟨0, none⟩
        (p.begun.openSequence "map")).1 q = q := by
    intro q
    have even := entries.length_forms
    rw [checkPaired]
    split
    · rw [if_neg (by rw [count]; simpa using even)]
    · rfl
  rw [entries.sketchAll_forms] at filled
  refine .node rfl ?_
  have closed := ahead.begun.enclosed rfl filled
  simp only [paired]
  exact closed

theorem yields_metadata? (readsBack : ReadsBack r form depth) {entries? : Option Pairs}
    (shallow : Pairs.metadataDepth entries? ≤ depth) (starts : Starts (firstKind r k))
    (ahead : Ahead r (Pairs.metadataItems entries? ++ k) p) :
    Yields r p (Pairs.metadataSketch r entries?) k (metadata? form p) := by
  cases entries? with
  | none =>
    have notCaret : p.isAt .caret = false := by
      rw [ahead.isAt_eq]
      exact beq_eq_false_iff_ne.mpr starts.2.2
    rw [metadata?, notCaret]
    exact ahead.stays
  | some entries =>
    have isCaret : p.isAt .caret = true := ahead.isAt_eq .caret
    have caret := ahead.begun.advance
    have isBrace : p.begun.advance.isAt .leftBrace = true := caret.ahead.isAt_eq .leftBrace
    have body := yields_map readsBack shallow caret.ahead
    simp only [metadata?, isCaret, if_true, metadata, require_eq]
    refine .node rfl ?_
    simp only [metadataBody, isBrace, if_true]
    exact caret.trans body

/-! ## Marks -/

theorem quoteNode_mark (quotation : Quotation) : quoteNode quotation.mark = quotation.node := by
  cases quotation <;> rfl

theorem yields_markedForm (readsBack : ReadsBack r form depth) {quotation : Quotation} {f : Form}
    (shallow : f.depth ≤ depth)
    (ahead : Ahead r (mark quotation.mark quotation.mark_mem :: (f.items ++ k)) p) :
    Yields r p [.node quotation.node [markLeaf quotation.mark, f.sketch r]] k
      (markedForm form p).2 := by
  have taken := ahead.begun.advance
  obtain ⟨c, q, read, yields⟩ := readsBack.reads f shallow _ k taken.ahead
  have isMark : p.kind = quotation.mark := ahead.kind_eq
  rw [markedForm, isMark, quoteNode_mark]
  refine .node (by cases quotation <;> rfl) ?_
  simp only [taken.ahead.going (f.starts k), Bool.false_eq_true, if_false, read]
  exact taken.trans yields

end Writing

end LispSyntax
