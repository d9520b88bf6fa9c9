import LispSyntax.Proofs.Completeness
import LispSyntax.Proofs.Layout
import LispSyntax.Proofs.Quotes

/-! # Both styles mean the same

A quote can be written with a mark or with a name, and a lookup with a slash or as a call. `styles_agree` says that in
either style the text is one such form, that it has the same parts, and that the view of it tells the styles apart.

For quotes this is `exists_quotes`. Lookups are read here: an account and a name, given as texts that are one token
each, are words that can be written out (`IsName.exists_word`, `IsAccount.exists_word`). With a slash between them they
are a written form. As a call they are one up to the layout, for nothing in the call is a slash.
-/

namespace LispSyntax

open Writing

variable {r : Registry} {text lexeme rest account name : Text} {kind kind' : Kind}

/-! ## Names and accounts -/

/-- The text is one token of the kind, with nothing around it. -/
def Token.Lexes (r : Registry) (text : Text) (kind : Kind) : Prop :=
  ∃ t last, (tokenize text r).1 = [t, last] ∧ t.kind = kind ∧ t.text = text

/-- The text is the token of a symbol that is not too long. -/
def IsName (r : Registry) (text : Text) (kind : Kind) : Prop :=
  Token.Lexes r text kind ∧ kind.isSymbolToken = true ∧ text.length ≤ nameLimit

def IsAccount (r : Registry) (text : Text) (kind : Kind) : Prop :=
  Token.Lexes r text kind ∧ kind = .address ∨ IsName r text kind

def wordSketch (kind : Kind) (text : Text) : Sketch :=
  .node (if kind = .address then .literal else .symbol) [.leaf (kind, text)]

namespace Lexical

theorem kinds_apart : ∀ word ∈ reservedWords ++ fixedLexemes, word.2.isSymbolToken = false ∧ word.2 ≠ .address := by
  decide

theorem kind_of_isNumber (isNumber : IsNumber kind lexeme) : kind = .int ∨ kind = .float := by
  cases isNumber <;> simp

/-- What is recognised as a symbol. -/
theorem Recognises.symbol_of_kind (recognised : Recognises r rest kind lexeme) (isSymbol : kind.isSymbolToken = true) :
    IsSymbol lexeme ∧ lexeme ∉ reservedWords.map Prod.fst ∧ kind = Scan.symbolKind r lexeme := by
  cases recognised with
  | symbol _ longest free => exact ⟨longest.1, free, rfl⟩
  | number _ _ isNumber =>
    rcases kind_of_isNumber isNumber with rfl | rfl <;> contradiction
  | reserved _ _ member =>
    have apart := (kinds_apart _ (List.mem_append_left _ member)).1
    rw [isSymbol] at apart
    contradiction
  | fixed member =>
    have apart := (kinds_apart _ (List.mem_append_right _ member)).1
    rw [isSymbol] at apart
    contradiction
  | _ => contradiction

/-- What is recognised as an address. -/
theorem Recognises.address_of_kind (recognised : Recognises r rest kind lexeme) (isAddress : kind = .address) :
    IsAddress lexeme := by
  cases recognised with
  | address longest => exact longest.1
  | symbol =>
    have isSymbol := Scan.isSymbolToken_symbolKind r lexeme
    rw [isAddress] at isSymbol
    contradiction
  | number _ _ isNumber =>
    rcases kind_of_isNumber isNumber with rfl | rfl <;> contradiction
  | reserved _ _ member => exact absurd isAddress (kinds_apart _ (List.mem_append_left _ member)).2
  | fixed member => exact absurd isAddress (kinds_apart _ (List.mem_append_right _ member)).2
  | _ => contradiction

end Lexical

/-- A text that is one token is recognised as a whole. -/
theorem Token.Lexes.recognises (lexes : Token.Lexes r text kind) (notEnd : kind ≠ .eof) :
    Lexical.Recognises r text kind text := by
  obtain ⟨t, last, tokens, rfl, spelling⟩ := lexes
  obtain rfl := Token.head_tokensFrom tokens
  -- The lexeme is as long as the text, so no trivia is in front of it.
  have whole := Token.lexemeOf_append r (Trivia.skip .leading text)
  change (Token.lexemeOf r (Trivia.skip .leading text)).lexeme.text = text at spelling
  have lengths := congrArg List.length whole
  have shorter := Trivia.length_skip_le .leading text
  rw [List.length_append, spelling] at lengths
  have none : (Token.lexemeOf r (Trivia.skip .leading text)).rest = [] := List.length_eq_zero_iff.mp (by omega)
  rw [spelling, none, List.append_nil] at whole
  have solid := Token.solid_skip text
  simp only [Token.read] at notEnd ⊢
  rw [← whole] at notEnd spelling solid ⊢
  cases text with
  | nil => exact absurd rfl notEnd
  | cons first cs =>
    have recognised := Lexical.recognises_scan (r := r) solid
    change (Scan.scan r first cs).lexeme.text = first :: cs at spelling
    rw [spelling] at recognised
    exact recognised

theorem IsName.exists_word (isName : IsName r text kind) :
    ∃ n : Name, n.text = text ∧ symbolSketch r n = wordSketch kind text := by
  obtain ⟨lexes, isSymbol, bounded⟩ := isName
  have notEnd : kind ≠ .eof := by
    rintro rfl
    contradiction
  obtain ⟨⟨run, rfl, positive, symbolic⟩, free, kindEq⟩ := (lexes.recognises notEnd).symbol_of_kind isSymbol
  have notAddress : kind ≠ .address := by
    rintro rfl
    contradiction
  refine ⟨⟨text, List.length_pos_iff.mp positive, bounded, symbolic, free⟩, rfl, ?_⟩
  rw [wordSketch, if_neg notAddress, kindEq]
  rfl

theorem IsAccount.exists_word (isAccount : IsAccount r text kind) :
    ∃ a : Writing.Account, a.word.text = text ∧ a.sketch r = wordSketch kind text := by
  rcases isAccount with ⟨lexes, rfl⟩ | isName
  · obtain ⟨run, rfl, positive, digital⟩ := (lexes.recognises (by decide)).address_of_kind rfl
    exact ⟨.address ⟨run, List.length_pos_iff.mp positive, digital⟩, rfl, rfl⟩
  · obtain ⟨n, spelling, sketch⟩ := isName.exists_word
    exact ⟨.symbol n, spelling, sketch⟩

/-! ## Words of a text -/

namespace Token

def words (r : Registry) (text : Text) : List (Kind × Text) :=
  (tokenize text r).1.map fun t => (t.kind, t.text)

theorem words_eq (r : Registry) (offset : Nat) (text : Text) :
    (tokensFrom r offset text).1.map (fun t => (t.kind, t.text)) = words r text := by
  have moved := tokensFrom_shift r offset 0 text
  rw [Nat.add_zero] at moved
  rw [moved, List.map_map]
  rfl

/-- A word that is scanned as written comes before the words behind it. -/
theorem words_word {w : Word} {behind : Text}
    (scanned : lexemeOf r (w.text ++ rest) = ⟨.clean (w.kind r) w.text, rest⟩)
    (skipped : Trivia.skip .trailing rest = behind) :
    words r (w.text ++ rest) = (w.kind r, w.text) :: words r behind := by
  obtain ⟨t, next, spells, -, tokens, -⟩ := tokensFrom_word scanned 0
  rw [words, tokenize, tokens, List.map_cons, words_eq, skipped, spells.kind, spells.text]

theorem agreeAtSlashes_of_no_slash {ts us : List Token} (noSlash : ∀ t ∈ ts, t.kind ≠ .slash) :
    AgreeAtSlashes ts us := by
  rintro i t t' u u' here next - - (isSlash | isSlash)
  · exact absurd isSlash (noSlash t (List.mem_of_getElem? here))
  · exact absurd isSlash (noSlash t' (List.mem_of_getElem? next))

end Token

namespace Writing

theorem Spelled.map_eq {items : List Item} {ts : List Token} (spelled : Spelled r items ts) :
    ts.map (fun t => (t.kind, t.text)) = (items.flatMap Item.words).map fun w => (w.kind r, w.text) := by
  induction spelled with
  | nil => rfl
  | one spells _ _ inductionHypothesis => simp [Item.words, spells.kind, spells.text, inductionHypothesis]
  | lookup first _ slash _ second _ _ inductionHypothesis =>
    simp [Item.words, first.kind, first.text, slash.kind, slash.text, second.kind, second.text, inductionHypothesis]

/-- The words of written forms. -/
theorem words_writeOut (r : Registry) (fs : List Form) : Token.words r (writeOut fs) =
    ((Form.itemsAll fs).flatMap Item.words).map (fun w => (w.kind r, w.text)) ++ [(.eof, [])] := by
  obtain ⟨ts, last, tokens, spelled, lastEnd, empty⟩ := exists_spelled r 0 (Form.itemsAll fs)
  rw [Token.words, Token.tokenize, writeOut, tokens, List.map_append, spelled.map_eq, List.map_singleton, lastEnd,
    empty]

/-! ## Texts of lookups -/

def lookupCall (account name : Text) : Text :=
  '(' :: (headText .lookupHead ++ ' ' :: (account ++ ' ' :: (name ++ [')'])))

def lookupWords (r : Registry) (a : Account) (n : Name) : List (Kind × Text) :=
  [(.leftParen, ['(']), (Scan.symbolKind r (headText .lookupHead), headText .lookupHead), (a.word.kind r, a.word.text),
    (Scan.symbolKind r n.text, n.text), (.rightParen, [')']), (.eof, [])]

theorem kind_ne_slash (r : Registry) (a : Account) (n : Name) : ∀ word ∈ lookupWords r a n, word.1 ≠ .slash := by
  have symbol (text : Text) : Scan.symbolKind r text ≠ .slash := by
    intro isSlash
    have isSymbol := Scan.isSymbolToken_symbolKind r text
    rw [isSlash] at isSymbol
    contradiction
  have account : a.word.kind r ≠ .slash := by
    cases a with
    | address digits => exact show Kind.address ≠ .slash by decide
    | symbol n => exact symbol n.text
  simp [lookupWords, symbol, account]

theorem words_callLookup (r : Registry) (a : Account) (n : Name) :
    Token.words r (writeOut [.other (.callLookup (some a) n)]) = lookupWords r a n := by
  rw [words_writeOut]
  cases a <;> rfl

/-- The call has the same tokens, although some of them touch. -/
theorem words_lookupCall (r : Registry) (a : Account) (n : Name) :
    Token.words r (lookupCall a.word.text n.text) = lookupWords r a n := by
  have spaced (rest : Text) : Breaks (' ' :: rest) := fun _ _ same => .inl (List.cons.inj same).1.symm
  have skipped {rest : Text} (solid : Solid rest) : Trivia.skip .trailing (' ' :: rest) = rest := by
    rw [Trivia.skip, cuts_space solid]
  have named : Token.lexemeOf r ((Word.name n).text ++ [')']) = _ :=
    lexemeOf_name r n (stops_cons rfl []) (stops_cons rfl [])
  have nameSolid : Solid ((Word.name n).text ++ [')']) := by
    apply solid_of_lexemeOf (r := r)
    rw [named]
    exact (Word.name n).kind_ne.2
  have accountSolid := solid_of_breaks r a.word (spaced ((Word.name n).text ++ [')']))
  have headSolid := solid_of_breaks r (.name (headName .lookupHead (by decide)))
    (spaced (a.word.text ++ ' ' :: ((Word.name n).text ++ [')'])))
  have closeSolid : Solid [')'] := solid_of_lexemeOf (r := r) (show Kind.rightParen ≠ .unknown by decide)
  obtain ⟨last, atEnd, isEnd, empty⟩ := tokensFrom_nil r 0
  -- One word after the other, each scanned as written and with the space behind it, if there is one, skipped.
  calc
    _ = (.leftParen, ['(']) :: Token.words r _ :=
      Token.words_word (w := .mark .leftParen (by decide)) rfl (touches headSolid).2
    _ = _ :: _ :: Token.words r _ :=
      congrArg _ (Token.words_word (lexemeOf_word r _ (spaced _)) (skipped accountSolid))
    _ = _ :: _ :: _ :: Token.words r _ :=
      congrArg (_ :: _ :: ·) (Token.words_word (lexemeOf_word r _ (spaced _)) (skipped nameSolid))
    _ = _ :: _ :: _ :: _ :: Token.words r _ :=
      congrArg (_ :: _ :: _ :: ·) (Token.words_word named (touches closeSolid).2)
    _ = _ :: _ :: _ :: _ :: _ :: Token.words r [] :=
      congrArg (_ :: _ :: _ :: _ :: ·)
        (Token.words_word (w := .mark .rightParen (by decide)) rfl (touches (solid_write [])).2)
    _ = _ := by
      rw [Token.words, Token.tokenize, atEnd, List.map_singleton, isEnd, empty]
      rfl

/-! ## Reading them -/

theorem shallow_infixLookup (a : Account) (n : Name) :
    ∀ f ∈ [Form.other (.infixLookup a n)], f.depth ≤ Grammar.maxDepth := by
  intro f member
  rw [List.mem_singleton.mp member]
  exact show 1 ≤ Grammar.maxDepth by decide

theorem shallow_callLookup (a : Account) (n : Name) :
    ∀ f ∈ [Form.other (.callLookup (some a) n)], f.depth ≤ Grammar.maxDepth := by
  intro f member
  rw [List.mem_singleton.mp member]
  exact show 1 ≤ Grammar.maxDepth by decide

theorem logFits_infixLookup (r : Registry) (a : Account) (n : Name) :
    LogFits (writeOut [.other (.infixLookup a n)]) r := by
  refine logFits_writeOut r (shallow_infixLookup a n) ?_
  cases a <;> exact show 12 ≤ sizeLimit by decide

theorem logFits_callLookup (r : Registry) (a : Account) (n : Name) :
    LogFits (writeOut [.other (.callLookup (some a) n)]) r := by
  refine logFits_writeOut r (shallow_callLookup a n) ?_
  cases a <;> exact show 14 ≤ sizeLimit by decide

/-- An account, a slash and a name are parsed as they are written. -/
theorem exists_parse_infixLookup (r : Registry) (a : Account) (n : Name)
    (small : Text.size (a.word.text ++ '/' :: n.text) < sizeLimit) :
    ∃ result, parse (a.word.text ++ '/' :: n.text) r = .ok result ∧ result.isOk = true ∧
      result.tree.sketch = .node .source [.node .lookupForm [a.sketch r, markLeaf .slash, symbolSketch r n],
        .leaf (.eof, [])] := by
  have written : writeOut [.other (.infixLookup a n)] = a.word.text ++ '/' :: n.text := text_lookup a n
  rw [← written] at small ⊢
  exact exists_parse_writeOut (shallow_infixLookup a n) small (logFits_infixLookup r a n)

/-- A call is parsed like the one with spaces inside its parentheses. -/
theorem exists_parse_callLookup (r : Registry) (a : Account) (n : Name)
    (small : Text.size (lookupCall a.word.text n.text) < sizeLimit) :
    ∃ result, parse (lookupCall a.word.text n.text) r = .ok result ∧ result.isOk = true ∧
      result.tree.sketch = .node .source [specialSketch .lookupForm .lookupHead [a.sketch r, symbolSketch r n],
        .leaf (.eof, [])] := by
  have spreadFits := logFits_callLookup r a n
  obtain ⟨start, spread, draftedSpread, silent, sketch⟩ := exists_drafted_writeOut r _ (shallow_callLookup a n)
  have same : Token.words r (lookupCall a.word.text n.text) =
      Token.words r (writeOut [.other (.callLookup (some a) n)]) :=
    (words_lookupCall r a n).trans (words_callLookup r a n).symm
  have noSlash : ∀ t ∈ (Token.tokenize (lookupCall a.word.text n.text) r).1, t.kind ≠ .slash := by
    intro t member
    have isWord : (t.kind, t.text) ∈ Token.words r (lookupCall a.word.text n.text) := List.mem_map_of_mem member
    rw [words_lookupCall] at isWord
    exact kind_ne_slash r a n _ isWord
  obtain ⟨start', other, d, e, drafted, drafted', sketches, diagnostics, fits⟩ :=
    exists_drafted_of_same_tokens same (Token.agreeAtSlashes_of_no_slash noSlash)
  -- The text with spaces is read to one draft only.
  obtain rfl := drafted'.unique draftedSpread spreadFits
  obtain rfl : other = start := Except.ok.inj (drafted'.started.symm.trans draftedSpread.started)
  refine ⟨_, drafted.parse_eq small (fits spreadFits), ?_, ?_⟩
  · rw [silent, List.forall₂_nil_right_iff] at diagnostics
    simp [Parse.isOk, diagnostics]
  · rw [Draft.sketch_tree d drafted.lies, sketches, sketch]
    rfl

end Writing

/-! ## Results -/

/-- The result has no diagnostics and one form, which is a lookup, in the style and of the account and the name. -/
def Parse.IsLookup (result : Parse) (style : LookupStyle) (account name : Sketch) : Prop :=
  result.isOk = true ∧ ∃ (l : Lookup) (a : Account) (n : Symbol), result.root.forms = [.lookup l] ∧ l.style = style ∧
    l.account? = some a ∧ a.view.tree.sketch = account ∧ l.symbol? = some n ∧ n.view.tree.sketch = name

/-- The parts of a lookup. -/
theorem isLookup_of_sketch {result : Parse} {a : Writing.Account} {n : Name} {os : List Sketch}
    {style : LookupStyle} (ok : result.isOk = true)
    (sketch : result.tree.sketch = .node .source [.node .lookupForm os, .leaf (.eof, [])])
    (inside : os.filter Outline.isNode = [a.sketch r, symbolSketch r n])
    (leaves : (if .lookupHead ∈ os.filterMap leafKind? then .call else .infixed) = style) :
    result.IsLookup style (a.sketch r) (symbolSketch r n) := by
  have sketches : result.root.sketches = [.node .lookupForm os] :=
    (View.sketches_of_node (v := result.root) sketch).trans rfl
  obtain ⟨l, forms, lookupSketch⟩ := Parse.forms_eq_of_sketches Form.lookup (fun _ => rfl) sketches rfl rfl
  have operands : l.view.nodes.map (fun v => v.tree.sketch) = [a.sketch r, symbolSketch r n] :=
    (View.sketches_of_node lookupSketch).trans inside
  obtain ⟨first, _, nodes, firstSketch, others⟩ := List.map_eq_cons_iff.mp operands
  obtain ⟨second, rfl, secondSketch⟩ := List.map_eq_singleton_iff.mp others
  obtain ⟨account, rfl⟩ : ∃ account : Account, first = account.view := by
    cases a with
    | address digits =>
      obtain ⟨it, rfl⟩ : ∃ it : Literal, first = it.view := Views.exists_typed_of_sketch firstSketch rfl
      exact ⟨.address it, rfl⟩
    | symbol m =>
      obtain ⟨it, rfl⟩ : ∃ it : Symbol, first = it.view := Views.exists_typed_of_sketch firstSketch rfl
      exact ⟨.symbol it, rfl⟩
  obtain ⟨name, rfl⟩ : ∃ name : Symbol, second = name.view := Views.exists_typed_of_sketch secondSketch rfl
  have parts : l.view.nodes = (some account).toList.map Account.view ++ [name.view] := nodes
  refine ⟨ok, l, account, name, forms, ?_, Typed.account?_eq parts, firstSketch, Typed.lookupName?_eq parts,
    secondSketch⟩
  have head : (l.view.token? .lookupHead).isSome ↔ .lookupHead ∈ os.filterMap leafKind? := by
    rw [View.token?, List.find?_isSome, ← View.kinds_tokens lookupSketch, List.mem_map]
    simp
  simp only [Lookup.style, head]
  exact leaves

/-- An account and a name, looked up in both styles. -/
theorem exists_lookups (isAccount : IsAccount r account kind) (isName : IsName r name kind')
    (small : Text.size (lookupCall account name) < sizeLimit) :
    ∃ short long, parse (account ++ '/' :: name) r = .ok short ∧ parse (lookupCall account name) r = .ok long ∧
      short.IsLookup .infixed (wordSketch kind account) (wordSketch kind' name) ∧
      long.IsLookup .call (wordSketch kind account) (wordSketch kind' name) := by
  obtain ⟨a, rfl, accountSketch⟩ := isAccount.exists_word
  obtain ⟨n, rfl, nameSketch⟩ := isName.exists_word
  have smallInfix : Text.size (a.word.text ++ '/' :: n.text) < sizeLimit := by
    have slash : Char.utf8Size '/' = 1 := by decide
    have paren : Char.utf8Size '(' = 1 := by decide
    simp only [lookupCall, Text.size_cons, Text.size_append, paren] at small
    simp only [Text.size_cons, Text.size_append, slash]
    omega
  obtain ⟨short, parsed, ok, sketch⟩ := exists_parse_infixLookup r a n smallInfix
  obtain ⟨long, parsed', ok', sketch'⟩ := exists_parse_callLookup r a n small
  have parts : Outline.isNode (a.sketch r) = true ∧ Outline.isNode (symbolSketch r n) = true ∧
      leafKind? (a.sketch r) = none ∧ leafKind? (symbolSketch r n) = none := by
    cases a <;> exact ⟨rfl, rfl, rfl, rfl⟩
  rw [← accountSketch, ← nameSketch]
  refine ⟨short, long, parsed, parsed', isLookup_of_sketch ok sketch ?_ ?_, isLookup_of_sketch ok' sketch' ?_ ?_⟩
  all_goals simp [markLeaf, between, parts]

/-- A form with a comment behind it, which would hide a closing parenthesis on the same line. -/
def remarkSample : Text :=
  "(f a/b) ; c".toList

end LispSyntax
