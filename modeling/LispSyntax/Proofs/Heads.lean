import LispSyntax.Proofs.Conditions

/-! # Names of special forms at the front of lists

A list that starts with the name of a special form is that special form, unless a slash touches the name: then the
parser takes the name for the account of a lookup. It looks at the slash only, and not at what comes behind it. Where
that is no name there is no lookup either, and the list starts with the name all the same. `listForm_of_head` says that
this is the only way for a list to start so, and what the list then holds; `listForm_of_head_divided` is such a list.
-/

namespace LispSyntax

/-! ## Slashes -/

/-- A slash stands for itself. -/
theorem Token.text_of_slash {text : Text} {r : Registry} {t : Token} (member : t ∈ (Token.tokenize text r).1)
    (isSlash : t.kind = .slash) : t.text = ['/'] := by
  obtain ⟨rest, -, -, recognised⟩ := Token.recognised_tokensFrom r 0 text [] rfl t member (by simp [isSlash])
  have spelled := (recognised .slash t.text).mpr ⟨isSlash.symm, rfl⟩
  generalize t.text = lexeme at spelled
  generalize kindEq : Kind.slash = kind at spelled
  cases spelled with
  | fixed among =>
    subst kindEq
    simpa [Lexical.fixedLexemes] using among
  | number _ _ isNumber =>
    subst kindEq
    cases isNumber
  | reserved _ _ among =>
    subst kindEq
    simp [Lexical.reservedWords] at among
  | symbol =>
    have isName := Scan.isSymbolToken_symbolKind r lexeme
    rw [← kindEq] at isName
    contradiction
  | _ => contradiction

theorem Token.LooksUp.append {t : Token} {ts : List Token} (looks : t.LooksUp ts) (us : List Token) :
    t.LooksUp (ts ++ us) := by
  obtain ⟨s, u, rest, rfl, facts⟩ := looks
  exact ⟨s, u, rest ++ us, rfl, facts⟩

namespace Grammar

open LispSyntax.Parser Draft

variable {p : Parser} {t u : Token} {ts : List Token} {ds : List Draft} {budget : Nat} {text : Text}

/-! ## Two turns of a list -/

/-- What the rule for a form makes of a name: an error where it is too deep, a lookup, or the symbol. -/
theorem form_name_cases (budget : Nat) (ready : p.Ready) (rest : p.rest = t :: ts)
    (isSymbol : t.kind.isSymbolToken = true) (going : p.atSequenceEnd = false) :
    (∃ kind ds, kind ≠ .symbol ∧ Runs p [.node kind ds] (form budget p).2) ∨
    ∃ below, budget = below + 1 ∧ ¬ t.LooksUp ts ∧ form budget p = counted (symbol p) := by
  cases budget with
  | zero =>
    obtain ⟨ds, makes, -⟩ := reads_tooDeep ready going
    exact .inl ⟨.error, ds, by decide, by simpa [form, going, counted] using makes.runs⟩
  | succ below =>
    have formEq : form (below + 1) p = counted (infixLookup (symbol p)) := by
      rw [form_of_going _ going, formAt_symbol _ (by rw [atSymbol, kind_of_rest rest, isSymbol])]
    rw [formEq, symbol_of_rest rest isSymbol]
    by_cases looks : t.LooksUp ts
    · obtain ⟨s, u, -, -, -, -, made⟩ := made_lookup ready rest (rfl : Kind.symbol.isLabel = true) looks
      exact .inl ⟨.lookupForm, _, by decide, made.walks.toRuns⟩
    · exact .inr ⟨below, rfl, looks, by rw [infixLookup_leaf ready rest rfl looks]⟩

/-- A slash at the start of a form is a symbol. -/
theorem runs_form_slash (budget : Nat) (rest : p.rest = t :: ts) (isSlash : t.kind = .slash) :
    Runs p [.node .symbol [Draft.token p.slashKind t]] (form (budget + 1) p).2 := by
  have kindEq : p.kind = .slash := by rw [kind_of_rest rest, isSlash]
  have going : p.atSequenceEnd = false := by simp [atSequenceEnd, isAt, kindEq, Kind.isCloser]
  have formEq : form (budget + 1) p = counted (p.node .symbol fun p => p.advanceAs p.slashKind) := by
    rw [form_of_going _ going]
    simp only [formAt, kindEq]
  rw [formEq]
  exact (makes_leafNode .symbol p.slashKind rest rfl).runs

theorem atSequenceEnd_of_isSymbolToken (rest : p.rest = t :: ts) (isSymbol : t.kind.isSymbolToken = true) :
    p.atSequenceEnd = false := by
  rcases symbol_cases isSymbol with h | h | h <;> simp [atSequenceEnd, isAt, kind_of_rest rest, h, Kind.isCloser]

/-- The forms of a list are those of the sequence behind its parenthesis. -/
theorem makes_list {form : FormRule} (ready : p.Ready) (rest : p.rest = t :: ts) (isParen : t.kind = .leftParen)
    (runs : Runs (p.begun.openSequence "list") ds (sequence form (p.begun.openSequence "list"))) :
    ∃ ending, Makes p (.node .listForm (Draft.token t.kind t :: ds ++ ending)) (list form p) := by
  have opens : t.kind.closer? = some .rightParen := by rw [isParen]; rfl
  obtain ⟨ending, whole, -, -⟩ := runs_between ready.begun rest opens runs
  exact ⟨ending, by rw [list, delimited]; exact makes_node rfl whole⟩

theorem sequenceLoop_of_going {form : FormRule} (turns : Nat) (going : p.atSequenceEnd = false) :
    sequenceLoop form (turns + 1) p = sequenceLoop form turns (form p).2 := by
  rw [sequenceLoop, if_neg (by simp [going])]

/-- Where a list starts with a name that a slash touches, and this is not the account of a lookup, the slash is the
second form. -/
theorem exists_division_of_list {s : Token} {us : List Token} {es more : List Draft} (below : budget < maxDepth)
    (ready : p.Ready) (rest : p.rest = t :: u :: s :: us) (isParen : t.kind = .leftParen)
    (isSymbol : u.kind.isSymbolToken = true) (isSlash : s.kind = .slash)
    (makes : Makes p (.node .listForm ds) (list (form budget) p))
    (addressed : (list (form budget) p).2.Addressed)
    (first : ds = Draft.token .leftParen t :: .node .symbol es :: more) :
    ¬ u.LooksUp (s :: us) ∧ ∃ more, ds = Draft.token t.kind t :: .node .symbol [Draft.token u.kind u] ::
      .node .symbol [Draft.token p.slashKind s] :: more := by
  have opens : t.kind.closer? = some .rightParen := by rw [isParen]; rfl
  have ready' := ready.begun.openSequence rest opens "list"
  have rest' : (p.begun.openSequence "list").rest = u :: s :: us := by
    rw [openSequence_eq (p := p.begun) rest opens]
    exact rest_advanceAs (p := p.begun) rest t.kind
  have going := atSequenceEnd_of_isSymbolToken rest' isSymbol
  have turns : sequence (form budget) (p.begun.openSequence "list") =
      sequenceLoop (form budget) (us.length + 1) (form budget (p.begun.openSequence "list")).2 := by
    rw [sequence, rest', List.length_cons, List.length_cons, sequenceLoop_of_going _ going]
  have forms := tracesForms_form budget below
  -- A name that heads a lookup becomes another node than the symbol that `first` says is there.
  rcases form_name_cases budget ready' rest' isSymbol going with
    ⟨kind, os, other, runs⟩ | ⟨less, rfl, noLookup, formEq⟩
  · obtain ⟨others, runs', -⟩ := traces_sequenceLoop forms (us.length + 1) (runs.ready ready')
    obtain ⟨ending, made⟩ := makes_list ready rest isParen (turns ▸ runs.trans runs')
    have same := (Outline.node.inj (makes.unique made addressed)).2
    rw [first] at same
    exact absurd (Outline.node.inj (List.cons.inj (List.cons.inj same).2).1).1 other
  · have name := (makes_leafNode .symbol u.kind rest' rfl).runs
    rw [← symbol_of_rest rest' isSymbol] at name
    have after : (symbol (p.begun.openSequence "list")).2.rest = s :: us := rest_symbol rest' isSymbol
    have slash := runs_form_slash less after isSlash
    have going' : (symbol (p.begun.openSequence "list")).2.atSequenceEnd = false := by
      simp [atSequenceEnd, isAt, kind_of_rest after, isSlash, Kind.isCloser]
    rw [formEq, counted, sequenceLoop_of_going _ going'] at turns
    obtain ⟨others, runs', -⟩ := traces_sequenceLoop forms us.length (slash.ready (name.ready ready'))
    obtain ⟨ending, made⟩ := makes_list ready rest isParen (turns ▸ name.trans (slash.trans runs'))
    have same := (Outline.node.inj (makes.unique made addressed)).2
    have slashKind : (symbol (p.begun.openSequence "list")).2.slashKind = p.slashKind := by
      rw [name.slash, openSequence_eq (p := p.begun) rest opens]
      exact (runs_advanceAs (p := p.begun) rest t.kind).slash
    rw [slashKind] at same
    exact ⟨noLookup, _, same.symm⟩

/-- No head was found although the name is one: a slash touches it. -/
theorem exists_slash_of_headAhead? {head : Kind} (ready : p.Ready) (rest : p.rest = t :: u :: ts)
    (isSymbol : u.kind.isSymbolToken = true) (isHead : Kind.ofHead? u.text = some head)
    (ahead : headAhead? p = none) : ∃ s us, ts = s :: us ∧ s.kind = .slash ∧ u.joined s = true := by
  have token : p.token 1 = u := by simp [Parser.token, rest]
  rw [headAhead?, nth, token, isSymbol, isHead] at ahead
  have touched : p.nth 2 = .slash ∧ p.joined 1 = true := by simpa using ahead
  obtain ⟨isSlash, joined⟩ := touched
  cases ts with
  | nil =>
    simp [nth, Parser.token, rest, ready.last_eof] at isSlash
  | cons s us =>
    refine ⟨s, us, rfl, ?_, ?_⟩
    · simpa [nth, Parser.token, rest] using isSlash
    · simpa [Parser.joined, Parser.token, rest] using joined

theorem specialNode_ne_listForm {head : Kind} (isHead : head ∈ Kind.heads) : specialNode head ≠ .listForm := by
  revert head
  decide

/-- A list that starts with the name of a special form starts with a division. -/
theorem Sourced.exists_division {low high : Parser} {more : List Draft} {head : Kind}
    (sourced : Sourced low high .listForm (Draft.token .leftParen t :: .node .symbol [Draft.token u.kind u] :: more))
    (addressed : high.Addressed) (isParen : t.kind = .leftParen) (isSymbol : u.kind.isSymbolToken = true)
    (isHead : Kind.ofHead? u.text = some head) :
    ∃ s others, more = .node .symbol [Draft.token low.slashKind s] :: others ∧ s.kind = .slash ∧
      u.joined s = true ∧ ¬ u.LooksUp (s :: tokensAll others) := by
  obtain ⟨p, ts, budget, few, ready, slashEq, rest, -, makes, fits⟩ :=
    sourced.exists_parenthesized addressed rfl isParen (by decide)
  have taken : ts = u :: (tokensAll more ++ (parenthesized (form budget) p).2.rest) := by
    simpa using rest.symm.trans makes.runs.rest
  rw [taken] at rest
  obtain ⟨-, noHead, isList⟩ | ⟨special, member, node, -⟩ := parenthesized_cases few ready rest isParen makes fits
  · obtain ⟨s, us, after, isSlash, touches⟩ := exists_slash_of_headAhead? ready rest isSymbol isHead noHead
    rw [after] at rest
    rw [isList] at makes after fits
    obtain ⟨noLookup, others, split⟩ :=
      exists_division_of_list few ready rest isParen isSymbol isSlash makes fits rfl
    simp only [List.cons.injEq] at split
    obtain ⟨-, -, rfl⟩ := split
    rw [slashEq]
    refine ⟨s, others, rfl, isSlash, touches, fun looks => noLookup ?_⟩
    rw [← after]
    simpa using looks.append _
  · exact absurd node.symm (specialNode_ne_listForm member)

end Grammar

/-! ## Views -/

open Grammar Draft

/-- The name of a symbol node is the text of its token. -/
theorem Draft.Views.name_eq {text : Text} {s : Symbol} {kind : Kind} {t : Token}
    (views : Views text s.view (.symbol, [Draft.token kind t])) (isSymbol : kind.isSymbolToken = true) :
    s.name = .ok t.text := by
  have children := views.children_eq
  obtain ⟨stop, placed⟩ := views.2
  have lies := placed.1 t (by simp)
  have tokens : s.view.tokens = [⟨t.leaf text kind, s.view.offset⟩] := by
    rw [View.tokens, children]
    rfl
  have found : s.view.symbolToken? = some ⟨t.leaf text kind, s.view.offset⟩ := by
    rw [View.symbolToken?, tokens, List.find?_cons_of_pos]
    rw [LeafView.kind, Token.kind_leaf]
    exact isSymbol
  rw [Typed.name, View.symbolName, found]
  exact lies.trimmed_leaf kind

/-- A symbol is one token, a name or a slash, and that is its name. -/
theorem Draft.IsViewed.symbol {text : Text} {s : Symbol} {d : Draft} {alone : Kind} (viewed : IsViewed text s.view d)
    (table : ∀ n ∈ d.nodes, Recovery.production alone False n.1 n.2) (isName : alone.isSymbolToken = true) :
    ∃ kind t, d = .node .symbol [Draft.token kind t] ∧ Views text s.view (.symbol, [Draft.token kind t]) ∧
      s.name = .ok t.text ∧ (kind = t.kind ∧ t.kind.isSymbolToken = true ∨ t.kind = .slash) := by
  obtain ⟨kind, ds, rfl, views⟩ := viewed
  obtain rfl : Kind.symbol = kind := by
    have isSymbol := s.kind_eq rfl
    rw [View.kind, views.1] at isSymbol
    exact isSymbol.symm
  rcases table (.symbol, ds) (by simp) with ⟨_, rfl, t, rfl, isSymbol⟩ | ⟨_, rfl, t, rfl, isSlash⟩
  · exact ⟨t.kind, t, rfl, views, views.name_eq isSymbol, .inl ⟨rfl, isSymbol⟩⟩
  · exact ⟨alone, t, rfl, views, views.name_eq isName, .inr isSlash⟩

theorem Draft.IsViewed.exists_symbol {text : Text} {f : Form} {ds : List Draft}
    (viewed : IsViewed text f.view (.node .symbol ds)) : ∃ s : Symbol, f = .symbol s ∧ s.view.Shows (tokensAll ds) := by
  obtain ⟨_, _, ⟨⟩, views⟩ := viewed
  obtain ⟨s, same⟩ : ∃ s : Symbol, f.view = s.view := views.exists_typed rfl
  have cast : Form.cast? f.view = Form.cast? s.view := by rw [same]
  rw [Form.cast?_view, Form.cast?_symbol] at cast
  exact ⟨s, Option.some.inj cast, same ▸ views.shows⟩

/-- The forms of a list are views of the drafts between its parentheses. -/
theorem exists_body_of_listForm {text : Text} {l : Typed .listForm} {ds : List Draft} {alone : Kind}
    (views : Views text l.view (.listForm, ds)) (follows : Recovery.production alone False .listForm ds) :
    ∃ o body ending, ds = Draft.token .leftParen o :: (body ++ ending) ∧ o.kind = .leftParen ∧
      l.view.nodes = l.forms.map Form.view ∧ List.Forall₂ (IsViewed text) (l.forms.map Form.view) body := by
  have viewed := views.nodes
  obtain ⟨_, _, rfl, ⟨_, rfl, o, rfl, isParen⟩, body, ending, rfl, isForm, closing⟩ := follows
  have nodes : body.filter Outline.isNode = body := by
    refine List.filter_eq_self.mpr fun d member => ?_
    obtain ⟨_, _, rfl, -⟩ := isForm d member
    rfl
  have leaves : ending.filter Outline.isNode = [] := by
    rcases closing with ⟨_, rfl, _, rfl, -⟩ | ⟨-, rfl⟩ <;> rfl
  have onlyBody : ([Draft.token .leftParen o] ++ (body ++ ending)).filter Outline.isNode = body := by
    rw [List.filter_append, List.filter_append, nodes, leaves, List.append_nil]
    rfl
  rw [onlyBody] at viewed
  obtain ⟨fs, formsEq, -⟩ := exists_forms viewed isForm
  refine ⟨o, body, ending, rfl, isParen, ?_⟩
  rw [Typed.forms_eq formsEq, ← formsEq]
  exact ⟨rfl, viewed⟩

/-- A list starts with the name of a special form only where a slash touches the name and no name follows it that would
make it a lookup. The slash is then the second form of the list. -/
theorem listForm_of_head {text : Text} {r : Registry} {result : Parse} (parsed : parse text r = .ok result)
    {l : Typed .listForm} (below : l.view ∈ result.root.descendants) {name : Symbol}
    (first : l.forms.head? = some (.symbol name)) {word : Text} (named : name.name = .ok word) {head : Kind}
    (isHead : Kind.ofHead? word = some head) :
    ∃ before o t s more behind, (Token.tokenize text r).1 = before ++ (o :: t :: s :: more) ++ behind ∧
      l.view.Shows (o :: t :: s :: more) ∧ o.kind = .leftParen ∧ name.view.Shows [t] ∧ t.text = word ∧
      t.kind.isSymbolToken = true ∧ s.kind = .slash ∧ t.joined s = true ∧ ¬ t.LooksUp (s :: more) ∧
      ∃ division : Symbol, l.forms[1]? = some (.symbol division) ∧ division.view.Shows [s] := by
  have kindEq := l.kind_eq rfl
  obtain ⟨ds, low, high, before, behind, views, sourced, slashEq, table, addressed, tokens⟩ :=
    exists_sourced parsed below (by rw [kindEq]; rfl)
  rw [kindEq] at views sourced table
  have follows := table (.listForm, ds) (by simp)
  obtain ⟨o, body, ending, rfl, isParen, nodes, viewed⟩ := exists_body_of_listForm views follows
  cases formsEq : l.forms with
  | nil =>
    rw [formsEq] at first
    contradiction
  | cons f others =>
    rw [formsEq] at first viewed nodes
    obtain rfl := Option.some.inj first
    obtain ⟨_, body, viewedName, -, rfl⟩ := List.forall₂_cons_left_iff.mp viewed
    obtain ⟨kind, t, rfl, nameViews, nameEq, isName⟩ := viewedName.symbol
      (fun n under => table n (by simp [under])) (slashEq ▸ Scan.isSymbolToken_symbolKind r ['/'])
    obtain rfl : t.text = word := Except.ok.inj (nameEq.symm.trans named)
    rcases isName with ⟨rfl, isSymbol⟩ | isSlash
    · rw [List.cons_append] at views sourced tokens
      obtain ⟨s, more, split, isSlash, touches, noLookup⟩ :=
        sourced.exists_division addressed isParen isSymbol isHead
      rw [split] at views tokens
      -- The slash is the second of the nodes, so it is the second form.
      have both : List.Forall₂ (IsViewed text) (name.view :: others.map Form.view)
          (.node .symbol [Draft.token t.kind t] :: .node .symbol [Draft.token low.slashKind s] ::
            more.filter Outline.isNode) := by
        have all := views.nodes
        rw [nodes] at all
        exact all
      obtain ⟨v, _, viewedSlash, -, formsSplit⟩ := List.forall₂_cons_right_iff.mp (List.forall₂_cons.mp both).2
      obtain ⟨g, gs, rfl, rfl, -⟩ := List.map_eq_cons_iff.mp formsSplit
      obtain ⟨division, rfl, shows⟩ := viewedSlash.exists_symbol
      refine ⟨before, o, t, s, tokensAll more, behind, by simpa using tokens, by simpa using views.shows, isParen,
        by simpa using nameViews.shows, rfl, isSymbol, isSlash, touches, noLookup, division, rfl, by simpa using shows⟩
    · have noHead : Kind.ofHead? ['/'] = none := by decide
      rw [Token.text_of_slash (by rw [tokens]; simp) isSlash, noHead] at isHead
      contradiction

def startsWith (word : Text) (l : Typed .listForm) : Bool :=
  match l.forms.head? with
  | some (.symbol name) => name.name.toOption == some word
  | _ => false

theorem exists_name_of_startsWith {word : Text} {l : Typed .listForm} (starts : startsWith word l = true) :
    ∃ name : Symbol, l.forms.head? = some (.symbol name) ∧ name.name = .ok word := by
  unfold startsWith at starts
  split at starts
  · rename_i name first
    refine ⟨name, first, ?_⟩
    cases named : name.name with
    | error fault => simp [named, Except.toOption] at starts
    | ok found => simpa [named, Except.toOption] using starts
  · contradiction

/-- A name of a special form, a slash that touches it, and no name behind the slash. -/
def dividedSample : Text :=
  "(def/ 1)".toList

/-- The slash of the sample is no lookup, and the second form of the list. -/
theorem listForm_of_head_divided :
    ∃ (result : Parse) (l : Typed .listForm) (name : Symbol), parse dividedSample .empty = .ok result ∧
      l.view ∈ result.root.descendants ∧ l.forms.head? = some (.symbol name) ∧ name.name = .ok "def".toList ∧
      Kind.ofHead? "def".toList = some .defHead ∧
      ∃ division : Symbol, l.forms[1]? = some (.symbol division) := by
  obtain ⟨result, l, parsed, below, starts⟩ : ∃ (result : Parse) (l : Typed .listForm),
      parse dividedSample .empty = .ok result ∧ l.view ∈ result.root.descendants ∧ startsWith "def".toList l = true :=
    exists_typed_of_any (by decide +kernel)
  obtain ⟨name, first, named⟩ := exists_name_of_startsWith starts
  have isHead : Kind.ofHead? "def".toList = some .defHead := by decide
  obtain ⟨-, -, -, -, -, -, -, -, -, -, -, -, -, -, -, division, second, -⟩ :=
    listForm_of_head parsed below first named isHead
  exact ⟨result, l, name, parsed, below, first, named, isHead, division, second⟩

/-- Nothing is reported about the sample, but in it the name of a special form is the first form of a list. -/
theorem exists_listForm_of_head :
    ∃ (result : Parse) (l : Typed .listForm) (name : Symbol), parse dividedSample .empty = .ok result ∧
      result.isOk = true ∧ l.view ∈ result.root.descendants ∧ l.forms.head? = some (.symbol name) ∧
      name.name = .ok "def".toList ∧ Kind.ofHead? "def".toList = some .defHead := by
  obtain ⟨result, l, parsed, below, checked⟩ : ∃ (result : Parse) (l : Typed .listForm),
      parse dividedSample .empty = .ok result ∧ l.view ∈ result.root.descendants ∧
        (result.isOk && startsWith "def".toList l) = true :=
    exists_typed_of_any (by decide +kernel)
  simp only [Bool.and_eq_true] at checked
  obtain ⟨name, first, named⟩ := exists_name_of_startsWith checked.2
  exact ⟨result, l, name, parsed, checked.1, below, first, named, by decide⟩

end LispSyntax
